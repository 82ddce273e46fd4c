import CodeScope.Visitor.GoVisitor

/-! # What is read of a Go file

The tables at the end of the file hold what the visit comes to: the methods in the declarations of
interfaces, at whatever depth, and the methods with receivers that are written as a name or as a
pointer to one. The interfaces embedded in an interface are looked for beside its type, where its own
name stands, so that it is recorded as embedded in itself and nothing else is. -/

namespace CodeScope.Visitor.GoVisitor

open Text (Str str)
open SyntaxTree (Node Path)
open Descent (arrive follow)

/-- A name and a type. -/
def NameAndType (source : Str) : List Node → Prop
  | [name, _] => name.kind = str "type_identifier" ∧ name.text source ≠ []
  | _ => False

instance (source : Str) : ∀ parts : List Node, Decidable (NameAndType source parts)
  | [name, _] => inferInstanceAs (Decidable (name.kind = _ ∧ name.text source ≠ []))
  | [] => inferInstanceAs (Decidable False)
  | [_] => inferInstanceAs (Decidable False)
  | _ :: _ :: _ :: _ => inferInstanceAs (Decidable False)

/-- A declaration as the grammar has it: a name and a type, with nothing beside them but type
    parameters and comments. -/
def TypeSpec (source : Str) (n : Node) : Prop :=
  NameAndType source (n.namedChildren.filter fun c =>
    c.kind ≠ str "comment" && c.kind ≠ str "type_parameter_list")

instance (source : Str) (n : Node) : Decidable (TypeSpec source n) :=
  inferInstanceAs (Decidable (NameAndType source _))

theorem NameAndType.parts {source : Str} : ∀ {parts : List Node}, NameAndType source parts →
    ∃ name type, parts = [name, type] ∧ name.kind = str "type_identifier" ∧ name.text source ≠ []
  | [name, type], h => ⟨name, type, rfl, h⟩

/-- The declarations of a file have their shape, and no declaration stands in a type: an array length
    is a constant, which has no function in it. -/
structure GoFile (source : Str) (root : Node) : Prop where
  specs : root.Everywhere fun n => n.kind = str "type_spec" → TypeSpec source n
  types : root.Everywhere fun n => n.kind = str "type_spec" →
    ∀ c ∈ n.children, c.Everywhere fun m => m.kind ≠ str "type_declaration"

/-! ## What the visit reads -/

/-- The call is for the declaration of an interface. -/
def opensInterface (source : Str) (job : Job) (n : Node) : Bool :=
  match job with
  | .typeSpec _ => !(extractName source n).isEmpty && isInterface n
  | _ => false

/-- The interface whose declaration is being visited, for the children of a node. -/
def interfaceIn (source : Str) (job : Job) (current : Str) (n : Node) : Str :=
  if opensInterface source job n then extractName source n else current

/-- The way of the visit, with the interface whose declaration is being visited. -/
def way (handler : JsHandler) (source : Str) (s : Job × Str) (p : Path) (n : Node) (i : ℕ)
    (c : Node) : Option (Job × Str) :=
  ((visitor handler source s.1 {} p n).enter i c).map fun job =>
    (job, interfaceIn source s.1 s.2 n)

/-- The visit comes to a node while it is in the declaration of an interface; the name is empty when
    it is in none. -/
def Visits (handler : JsHandler) (source : Str) (root : Node) (current : Str) (n : Node) : Prop :=
  ∃ r ctx, follow (way handler source) (firstCall, []) [] root r =
    some ((.visitNode ctx, current), n)

section Reading

variable (handler : JsHandler) (source : Str) (root : Node)

/-- A method is read in the declaration of an interface, at whatever depth. -/
def ReadsElement (iface method : Str) : Prop :=
  ∃ n, Visits handler source root iface n ∧ n.kind = str "method_elem" ∧ iface ≠ [] ∧
    extractName source n = method ∧ method ≠ []

/-- A method is read whose receiver is taken for the type. -/
def ReadsMethod (stype method : Str) : Prop :=
  ∃ current n, Visits handler source root current n ∧ n.kind = str "method_declaration" ∧
    extractName source n = method ∧ method ≠ [] ∧ stype ∈ receiverTypes source n ∧ stype ≠ []

end Reading

/-! ## One call -/

section Step

variable (source : Str) (job : Job) (current : Str) (n : Node)

/-- The entries that a call makes in `interface_methods_`. -/
def newInterfaceMethods : List (Str × Str) :=
  match job with
  | .visitNode _ =>
    if n.kind = str "method_elem" ∧ current ≠ [] ∧ extractName source n ≠ [] then
      [(current, extractName source n)]
    else []
  | _ => []

/-- The entries that a call makes in `struct_methods_`. -/
def newStructMethods : List (Str × Str) :=
  match job with
  | .visitNode _ =>
    if n.kind = str "method_declaration" ∧ extractName source n ≠ [] then
      ((receiverTypes source n).filter fun ptype => !ptype.isEmpty).map
        fun ptype => (ptype, extractName source n)
    else []
  | _ => []

/-- The entries that a call makes in `interface_embeds_`. -/
def newInterfaceEmbeds : List (Str × Str) :=
  if opensInterface source job n then
    (embeddedNames source n).map fun emb => (extractName source n, emb)
  else []

end Step

variable {handler : JsHandler} {source : Str} {root : Node}

/-- What a call does to the tables. -/
structure Effect (handler : JsHandler) (source : Str) (job : Job) (w : Tables) (p : Path) (n : Node)
    (step : GoStep) : Prop where
  enter : step.enter = (visitor handler source job {} p n).enter
  opened : step.opened =
    { interfaceMethods := w.interfaceMethods ++ newInterfaceMethods source job w.currentInterface n
      structMethods := w.structMethods ++ newStructMethods source job n
      interfaceEmbeds := w.interfaceEmbeds ++ newInterfaceEmbeds source job n
      currentInterface := interfaceIn source job w.currentInterface n }
  closed : ∀ w', step.closed w' =
    if opensInterface source job n then { w' with currentInterface := [] } else w'

variable {n : Node}

theorem effect_of_goOn {job : Job} {w : Tables} {p : Path} {records : List Emitted}
    {enter : ℕ → Node → Option Job}
    (hstep : visitor handler source job w p n = ⟨records, w, enter, id⟩)
    (hfirst : (visitor handler source job {} p n).enter = enter)
    (helem : newInterfaceMethods source job w.currentInterface n = [])
    (hmethod : newStructMethods source job n = []) (hopens : opensInterface source job n = false) :
    Effect handler source job w p n (visitor handler source job w p n) where
  enter := by rw [hstep, hfirst]
  opened := by
    rw [hstep, helem, hmethod]
    simp [newInterfaceEmbeds, interfaceIn, hopens]
  closed := fun w' => by
    rw [hstep, hopens]
    rfl

theorem effect_typeSpec (ctx : Ctx) (w : Tables) (p : Path) (n : Node) :
    Effect handler source (.typeSpec ctx) w p n (visitor handler source (.typeSpec ctx) w p n) := by
  have hstep : ∀ w, visitor handler source (.typeSpec ctx) w p n =
      handleTypeSpec source ctx w n := fun _ => rfl
  by_cases hname : extractName source n = []
  · have hnothing : ∀ w, handleTypeSpec source ctx w n = visitNothing w [] := fun w =>
      if_pos (by simp [hname])
    exact effect_of_goOn ((hstep w).trans (hnothing w)) (by rw [hstep, hnothing]; rfl) rfl rfl
      (by simp [opensInterface, hname])
  · by_cases hinterface : isInterface n = true
    · have hopen : ∀ w, handleTypeSpec source ctx w n =
          { reports := []
            opened :=
              { w with
                interfaceEmbeds := w.interfaceEmbeds ++
                  (embeddedNames source n).map fun emb => (extractName source n, emb)
                currentInterface := extractName source n }
            enter := fun _ c => if c.named then visitChild Job.visitNode ctx else none
            closed := fun w => { w with currentInterface := [] } } := fun w => by
        rw [handleTypeSpec, if_neg (by simpa using hname), if_pos hinterface]
      have hopens : opensInterface source (.typeSpec ctx) n = true := by
        simp [opensInterface, hname, hinterface]
      refine ⟨by rw [hstep, hstep, hopen, hopen], ?_, fun w' => ?_⟩
      · rw [hstep, hopen]
        simp [newInterfaceMethods, newStructMethods, newInterfaceEmbeds, interfaceIn, hopens]
      · rw [hstep, hopen, hopens]
        rfl
    · have hpass : ∀ w, handleTypeSpec source ctx w n = visitChildren ctx w := fun w => by
        rw [handleTypeSpec, if_neg (by simpa using hname), if_neg hinterface]
      exact effect_of_goOn ((hstep w).trans (hpass w)) (by rw [hstep, hpass]; rfl) rfl rfl
        (by simp [opensInterface, hinterface])

/-- A step that passes the tables on as they are. -/
def Passes (step : Tables → GoStep) : Prop :=
  ∃ (records : List Emitted) (enter : ℕ → Node → Option Job), ∀ w,
    step w = ⟨records, w, enter, id⟩

theorem Passes.ite {c : Prop} [Decidable c] {f g : Tables → GoStep} (hf : Passes f) (hg : Passes g) :
    Passes fun w => if c then f w else g w := by
  by_cases hc : c
  · simpa [hc] using hf
  · simpa [hc] using hg

theorem passes_visitChildren (ctx : Ctx) : Passes (visitChildren ctx) := ⟨[], _, fun _ => rfl⟩

theorem passes_goOn (enter : ℕ → Node → Option Job) : Passes fun w => goOn w enter :=
  ⟨[], _, fun _ => rfl⟩

theorem passes_visitNothing (records : List Emitted) :
    Passes fun w => visitNothing w records := ⟨records, _, fun _ => rfl⟩

theorem passes_jsVisitor (ctx : Ctx) (p : Path) (n : Node) :
    Passes fun w => JsVisitor.visitNode Job.visitNode
      (fun id => goOn w fun i c => (handler id ctx p n i c).map JsCall.job) source ctx w p n := by
  have hchildren : ∀ records, Passes fun w => Visitor.visitChildren Job.visitNode ctx w records :=
    fun records => ⟨records, _, fun _ => rfl⟩
  unfold JsVisitor.visitNode
  exact .ite (passes_visitNothing _) (.ite (passes_visitNothing _) (.ite (hchildren _)
    (.ite (passes_visitNothing _) (.ite (passes_visitNothing _) (.ite (passes_goOn _)
      (hchildren _))))))

theorem passes_visitNode (helem : n.kind ≠ str "method_elem")
    (hmethod : n.kind ≠ str "method_declaration") (ctx : Ctx) (p : Path) :
    Passes fun w => visitNode handler source ctx w p n := by
  simp only [visitNode, if_neg helem, if_neg hmethod]
  exact .ite (.ite (passes_visitChildren ctx) (passes_goOn _)) (.ite (passes_goOn _)
    (.ite (passes_visitChildren ctx) (.ite (passes_visitNothing _) (.ite (passes_goOn _)
      (.ite (passes_goOn _) (.ite (passes_visitChildren ctx) (.ite (passes_visitNothing _)
        (passes_jsVisitor ctx p n))))))))

theorem effect_interfaceMethod (helem : n.kind = str "method_elem") (ctx : Ctx) (w : Tables)
    (p : Path) :
    Effect handler source (.visitNode ctx) w p n (visitor handler source (.visitNode ctx) w p n) := by
  have hmethod : n.kind ≠ str "method_declaration" := Node.ne_of_kind helem (by decide)
  have hstruct : newStructMethods source (.visitNode ctx) n = [] := if_neg fun h => hmethod h.1
  have hstep : ∀ w, visitor handler source (.visitNode ctx) w p n =
      handleInterfaceMethod source w n := fun w => if_pos helem
  by_cases hentry : w.currentInterface ≠ [] ∧ extractName source n ≠ []
  · have hread : ∀ w : Tables, (visitor handler source (.visitNode ctx) w p n).enter =
        fun _ _ => none := fun w => by
      rw [hstep, handleInterfaceMethod]
      split_ifs <;> rfl
    have hnew : newInterfaceMethods source (.visitNode ctx) w.currentInterface n =
        [(w.currentInterface, extractName source n)] := if_pos ⟨helem, hentry⟩
    have hopen : handleInterfaceMethod source w n = visitNothing
        { w with interfaceMethods :=
            w.interfaceMethods ++ [(w.currentInterface, extractName source n)] } [] :=
      if_neg (by simpa using ⟨hentry.2, hentry.1⟩)
    refine ⟨by rw [hread, hread], ?_, fun w' => by rw [hstep, hopen]; rfl⟩
    rw [hstep, hopen, hnew, hstruct]
    simp [visitNothing, newInterfaceEmbeds, interfaceIn, opensInterface]
  · have hnothing : handleInterfaceMethod source w n = visitNothing w [] := by
      refine if_pos ?_
      rw [not_and_or, not_not, not_not] at hentry
      rcases hentry with h | h <;> simp [h]
    have hfirst : handleInterfaceMethod source {} n = visitNothing {} [] := if_pos (by simp)
    refine effect_of_goOn ((hstep w).trans hnothing) (by rw [hstep, hfirst]; rfl) ?_ hstruct rfl
    exact if_neg fun h => hentry h.2

theorem effect_methodDecl (hmethod : n.kind = str "method_declaration") (ctx : Ctx) (w : Tables)
    (p : Path) :
    Effect handler source (.visitNode ctx) w p n (visitor handler source (.visitNode ctx) w p n) := by
  have helem : n.kind ≠ str "method_elem" := Node.ne_of_kind hmethod (by decide)
  have hfunction : n.kind ≠ str "function_declaration" := Node.ne_of_kind hmethod (by decide)
  have hinterface : newInterfaceMethods source (.visitNode ctx) w.currentInterface n = [] :=
    if_neg fun h => helem h.1
  have hstep : ∀ w, visitor handler source (.visitNode ctx) w p n =
      handleMethodDecl source ctx w n := fun w => by
    show visitNode handler source ctx w p n = _
    rw [visitNode, if_neg helem, if_neg hfunction, if_pos hmethod]
  by_cases hname : extractName source n = []
  · have hpass : ∀ w, handleMethodDecl source ctx w n = visitChildren ctx w := fun w =>
      if_pos (by simp [hname])
    refine effect_of_goOn ((hstep w).trans (hpass w)) (by rw [hstep, hpass]; rfl) hinterface ?_ rfl
    exact if_neg fun h => h.2 hname
  · have hopen : ∀ w, handleMethodDecl source ctx w n =
        { reports := []
          opened :=
            { w with
              structMethods := w.structMethods ++
                ((receiverTypes source n).filter fun ptype => !ptype.isEmpty).map
                  fun ptype => (ptype, extractName source n) }
          enter := fun _ c =>
            if !c.named || c.kind = str "parameter_list" || c.kind = str "type_identifier" then none
            else some (.visitChildren ctx)
          closed := id } := fun w => if_neg (by simpa using hname)
    have hnew : newStructMethods source (.visitNode ctx) n =
        ((receiverTypes source n).filter fun ptype => !ptype.isEmpty).map
          fun ptype => (ptype, extractName source n) := if_pos ⟨hmethod, hname⟩
    refine ⟨by rw [hstep, hstep, hopen, hopen], ?_, fun w' => by rw [hstep, hopen]; rfl⟩
    rw [hstep, hopen, hinterface, hnew]
    simp [newInterfaceEmbeds, interfaceIn, opensInterface]

/-- **Each call of the visitor** makes its entries and passes the rest of the tables on. -/
theorem visitor_effect (handler : JsHandler) (source : Str) (job : Job) (w : Tables) (p : Path)
    (n : Node) : Effect handler source job w p n (visitor handler source job w p n) := by
  cases job with
  | visitChildren ctx | varSpec ctx => exact effect_of_goOn rfl rfl rfl rfl rfl
  | typeSpec ctx => exact effect_typeSpec ctx w p n
  | visitNode ctx =>
      by_cases helem : n.kind = str "method_elem"
      · exact effect_interfaceMethod helem ctx w p
      · by_cases hmethod : n.kind = str "method_declaration"
        · exact effect_methodDecl hmethod ctx w p
        · obtain ⟨records, enter, heq⟩ := passes_visitNode helem hmethod ctx p
          have hstep : ∀ w, visitor handler source (.visitNode ctx) w p n =
              ⟨records, w, enter, id⟩ := heq
          exact effect_of_goOn (hstep w) (by rw [hstep]) (if_neg fun h => helem h.1)
            (if_neg fun h => hmethod h.1) rfl

theorem typeSpec_of_opens {job : Job} (h : opensInterface source job n = true) :
    ∃ ctx, job = .typeSpec ctx := by
  cases job with
  | typeSpec ctx => exact ⟨ctx, rfl⟩
  | _ => exact absurd h (by simp [opensInterface])

/-! ## Where the declarations of types are entered -/

/-- A step that enters no declaration of a type. -/
def EntersNoSpec (step : GoStep) : Prop := ∀ i c ctx, step.enter i c ≠ some (.typeSpec ctx)

theorem EntersNoSpec.ite {c : Prop} [Decidable c] {f g : GoStep} (hf : EntersNoSpec f)
    (hg : EntersNoSpec g) : EntersNoSpec (if c then f else g) := by
  split
  · exact hf
  · exact hg

theorem visitChild_ne_typeSpec (ctx ctx' : Ctx) :
    visitChild Job.visitNode ctx ≠ some (.typeSpec ctx') := by
  unfold visitChild
  split <;> simp

theorem entersNoSpec_visitChildren (ctx : Ctx) (w : Tables) (records : List Emitted) :
    EntersNoSpec (Visitor.visitChildren Job.visitNode ctx w records) := by
  intro i c ctx'
  simp only [Visitor.visitChildren]
  split
  · exact visitChild_ne_typeSpec ctx ctx'
  · simp

theorem entersNoSpec_visitNothing (w : Tables) (records : List Emitted) :
    EntersNoSpec (visitNothing w records) := fun _ _ _ => by simp [visitNothing]

theorem entersNoSpec_jsVisitor (ctx : Ctx) (w : Tables) (p : Path) (n : Node) :
    EntersNoSpec (JsVisitor.visitNode Job.visitNode
      (fun id => goOn w fun i c => (handler id ctx p n i c).map JsCall.job) source ctx w p n) := by
  have hnothing := entersNoSpec_visitNothing w
  have hchildren := entersNoSpec_visitChildren ctx w
  unfold JsVisitor.visitNode
  refine .ite (hnothing _) (.ite (hnothing _) (.ite (hchildren _) (.ite (hnothing _)
    (.ite (hnothing _) (.ite (fun i c ctx' => ?_) (hchildren _))))))
  simp only [goOn]
  cases handler _ ctx p n i c with
  | none => simp
  | some call => cases call <;> simp [JsCall.job]

/-- Only the declaration of types leads to the declaration of a type. -/
theorem entersNoSpec_visitNode (hn : n.kind ≠ str "type_declaration") (ctx : Ctx) (w : Tables)
    (p : Path) : EntersNoSpec (visitNode handler source ctx w p n) := by
  have hnothing := entersNoSpec_visitNothing w
  have hchildren := entersNoSpec_visitChildren ctx w
  have hgoOn : ∀ enter : ℕ → Node → Option Job, (∀ i c ctx', enter i c ≠ some (.typeSpec ctx')) →
      EntersNoSpec (goOn w enter) := fun _ h => h
  simp only [visitNode, if_neg hn]
  refine .ite (.ite (hnothing _) (entersNoSpec_visitNothing _ _)) (.ite (.ite (hchildren _) ?_)
    (.ite (.ite (hchildren _) ?_) (.ite (hchildren _) (.ite (hnothing _) (.ite ?_ (.ite ?_
      (.ite (hchildren _) (.ite (hnothing _) (entersNoSpec_jsVisitor ctx w p n)))))))))
  · refine hgoOn _ fun i c ctx' => ?_
    split <;> simp
  · intro i c ctx'
    dsimp only
    split <;> simp
  · refine hgoOn _ fun i c ctx' => ?_
    split <;> simp
  · refine hgoOn _ fun i c ctx' => ?_
    split <;> simp

theorem enter_typeSpec {job : Job} {w : Tables} {p : Path} {c : Node} {i : ℕ} {ctx : Ctx}
    (h : (visitor handler source job w p n).enter i c = some (.typeSpec ctx)) :
    n.kind = str "type_declaration" ∧ c.kind = str "type_spec" := by
  cases job with
  | visitChildren ctx' => exact absurd h (entersNoSpec_visitChildren ctx' w [] i c ctx)
  | varSpec ctx' =>
      replace h : (if n.children.findIdx? (fun c => c.field = some (str "value")) = some i then
        visitChild Job.visitNode ctx' else none) = some (.typeSpec ctx) := h
      split at h
      · exact absurd h (visitChild_ne_typeSpec ctx' ctx)
      · exact absurd h (by simp)
  | typeSpec ctx' =>
      refine absurd h (EntersNoSpec.ite (entersNoSpec_visitNothing w []) (.ite ?_
        (entersNoSpec_visitChildren ctx' w [])) i c ctx)
      intro i c ctx
      dsimp only
      split
      · exact visitChild_ne_typeSpec ctx' ctx
      · simp
  | visitNode ctx' =>
      by_cases hn : n.kind = str "type_declaration"
      · refine ⟨hn, ?_⟩
        have hstep : visitor handler source (.visitNode ctx') w p n = handleTypeDecl ctx' w := by
          show visitNode handler source ctx' w p n = _
          rw [visitNode, if_neg (Node.ne_of_kind hn (by decide)),
            if_neg (Node.ne_of_kind hn (by decide)), if_neg (Node.ne_of_kind hn (by decide)),
            if_pos hn]
        rw [hstep] at h
        simp only [handleTypeDecl, goOn] at h
        split at h
        · rename_i hc
          simp only [Bool.and_eq_true, decide_eq_true_eq] at hc
          exact hc.2
        · exact absurd h (by simp)
      · exact absurd h (entersNoSpec_visitNode hn ctx' w p i c ctx)

/-- What is known of the node a call is made for: in the declaration of an interface no type is
    declared. -/
structure Inside (source : Str) (job : Job) (current : Str) (n : Node) : Prop where
  types : n.Everywhere fun m => m.kind = str "type_spec" →
    ∀ c ∈ m.children, c.Everywhere fun k => k.kind ≠ str "type_declaration"
  plain : current ≠ [] → n.Everywhere fun m => m.kind ≠ str "type_declaration"
  spec : ∀ ctx, job = .typeSpec ctx → n.kind = str "type_spec" ∧ current = []

/-- Outside the declaration of an interface and inside it, the interface that is being visited is the
    same before and after a call. -/
theorem visitor_brackets (handler : JsHandler) (source : Str) :
    Descent.Brackets (visitor handler source) Tables.currentInterface (Inside source) where
  back := by
    intro job w n hn p w' hw'
    have heffect := visitor_effect handler source job w p n
    rw [heffect.closed]
    by_cases hopens : opensInterface source job n = true
    · rw [if_pos hopens]
      obtain ⟨ctx, rfl⟩ := typeSpec_of_opens hopens
      exact (hn.spec ctx rfl).2.symm
    · rw [if_neg hopens, hw', heffect.opened]
      exact if_neg hopens
  next := by
    intro job w n hn p i c job' hc henter
    have heffect := visitor_effect handler source job w p n
    rw [heffect.opened]
    show Inside source job' (interfaceIn source job w.currentInterface n) c
    refine ⟨hn.types.of_mem hc, fun hcurrent => ?_, fun ctx hjob => ?_⟩
    · by_cases hopens : opensInterface source job n = true
      · obtain ⟨ctx, rfl⟩ := typeSpec_of_opens hopens
        exact hn.types.self (hn.spec ctx rfl).1 c hc
      · rw [interfaceIn, if_neg hopens] at hcurrent
        exact (hn.plain hcurrent).of_mem hc
    · subst hjob
      obtain ⟨hkind, hspec⟩ := enter_typeSpec henter
      refine ⟨hspec, ?_⟩
      have hempty : w.currentInterface = [] := by
        by_contra hcurrent
        exact (hn.plain hcurrent).self hkind
      cases job with
      | typeSpec ctx' => exact absurd ((hn.spec ctx' rfl).1.symm.trans hkind) (by decide)
      | visitNode ctx' | visitChildren ctx' | varSpec ctx' => exact hempty

/-! ## What has been read at the end -/

theorem arrives_iff (hfile : GoFile source root) (P : Job → Str → Node → Prop) :
    (∃ r a, arrive (visitor handler source) firstCall {} [] root r = some a ∧
        P a.1 a.2.1.currentInterface a.2.2) ↔
      ∃ r job current n, follow (way handler source) (firstCall, []) [] root r =
        some ((job, current), n) ∧ P job current n := by
  have hinside : Inside source firstCall (({} : Tables).currentInterface) root :=
    ⟨hfile.types, fun h => absurd rfl h, fun _ h => nomatch h⟩
  have hway : ∀ (job : Job) (w : Tables) (p : Path) (n : Node) (i : ℕ) (c : Node),
      way handler source (job, w.currentInterface) p n i c =
        ((visitor handler source job w p n).enter i c).map fun job' =>
          (job', (visitor handler source job w p n).opened.currentInterface) := by
    intro job w p n i c
    have heffect := visitor_effect handler source job w p n
    rw [way, heffect.enter, heffect.opened]
  have harrive := fun r => Descent.arrive_bracket (visitor_brackets handler source) hway hinside r
    (p := [])
  constructor
  · intro ⟨r, a, ha, hP⟩
    have hfollow := harrive r
    rw [ha] at hfollow
    exact ⟨r, a.1, a.2.1.currentInterface, a.2.2, hfollow.symm, hP⟩
  · intro ⟨r, job, current, n, hfollow, hP⟩
    obtain ⟨a, ha, heq⟩ := Option.map_eq_some_iff.mp ((harrive r).trans hfollow)
    obtain ⟨⟨rfl, rfl⟩, rfl⟩ : (a.1 = job ∧ a.2.1.currentInterface = current) ∧ a.2.2 = n := by
      simpa only [Prod.mk.injEq] using heq
    exact ⟨r, a, ha, hP⟩

/-- **What is read into a table** is what the calls enter that arrive somewhere. -/
theorem mem_collect (hfile : GoFile source root) (table : Tables → List (Str × Str))
    (new : Job → Str → Node → List (Str × Str)) (hstart : table {} = [])
    (hclears : ∀ w : Tables, table { w with currentInterface := [] } = table w)
    (hopened : ∀ job w p n, table (visitor handler source job w p n).opened =
      table w ++ new job w.currentInterface n) (pair : Str × Str) :
    pair ∈ table (collect handler source root) ↔ ∃ r job current n,
      follow (way handler source) (firstCall, []) [] root r = some ((job, current), n) ∧
        pair ∈ new job current n := by
  have hlog := Descent.mem_log (v := visitor handler source) table
    (fun job w _ n => new job w.currentInterface n) hopened (fun job w p n w' => by
      rw [(visitor_effect handler source job w p n).closed]
      split
      · exact hclears w'
      · rfl) pair firstCall {} [] root
  rw [hstart, or_iff_right List.not_mem_nil] at hlog
  exact hlog.trans (arrives_iff hfile fun job current n => pair ∈ new job current n)

/-- The declaration of an interface is entered. -/
def Opens (handler : JsHandler) (source : Str) (root : Node) (iface : Str) : Prop :=
  ∃ r ctx current n, follow (way handler source) (firstCall, []) [] root r =
    some ((.typeSpec ctx, current), n) ∧ opensInterface source (.typeSpec ctx) n = true ∧
    extractName source n = iface

/-- What is visited in the declaration of an interface comes after that has been entered. -/
theorem opens_of_follow {r : Path} {job : Job} {current : Str}
    (h : follow (way handler source) (firstCall, []) [] root r = some ((job, current), n))
    (hcurrent : current ≠ []) : Opens handler source root current := by
  induction r using List.reverseRecOn generalizing job n with
  | nil =>
      have heq := congrArg (fun b => b.1.2) (Option.some.inj h)
      exact absurd heq.symm hcurrent
  | append_singleton r i ih =>
      obtain ⟨⟨job', current'⟩, m, hm, -, hstep⟩ := Descent.follow_snoc h
      obtain ⟨job'', henter, hpair⟩ := Option.map_eq_some_iff.mp hstep
      have heq : interfaceIn source job' current' m = current := congrArg Prod.snd hpair
      by_cases hopens : opensInterface source job' m = true
      · rw [interfaceIn, if_pos hopens] at heq
        obtain ⟨ctx, rfl⟩ := typeSpec_of_opens hopens
        exact ⟨r, ctx, current', m, hm, hopens, heq⟩
      · rw [interfaceIn, if_neg hopens] at heq
        subst heq
        exact ih hm

theorem spec_of_follow (hfile : GoFile source root) {r : Path} {ctx : Ctx} {current : Str}
    (h : follow (way handler source) (firstCall, []) [] root r = some ((.typeSpec ctx, current), n)) :
    TypeSpec source n := by
  refine hfile.specs r n (Descent.follow_find h) ?_
  induction r using List.reverseRecOn with
  | nil => exact absurd (congrArg (fun b => b.1.1) (Option.some.inj h)) (by simp [firstCall])
  | append_singleton r i ih =>
      obtain ⟨⟨job', current'⟩, m, -, -, hstep⟩ := Descent.follow_snoc h
      obtain ⟨job'', henter, heq⟩ := Option.map_eq_some_iff.mp hstep
      obtain ⟨rfl, -⟩ := Prod.mk.inj heq
      exact (enter_typeSpec henter).2

/-- The name of an interface is the one name beside its type. -/
theorem embeddedNames_eq (hn : TypeSpec source n) (hinterface : isInterface n = true) :
    embeddedNames source n = [extractName source n] := by
  obtain ⟨name, type, hparts, hkind, hname⟩ := NameAndType.parts hn
  -- the kinds looked for are not those left out
  have hfind : ∀ P : Node → Bool, (∀ c, P c = true →
      (c.kind ≠ str "comment" && c.kind ≠ str "type_parameter_list") = true) →
      n.namedChildren.filter P = [name, type].filter P := by
    intro P hP
    rw [← hparts, List.filter_filter]
    refine List.filter_congr fun c _ => ?_
    cases hc : P c with
    | false => rfl
    | true => rw [hP c hc]; rfl
  have hstruct : name.kind ≠ str "struct_type" := Node.ne_of_kind hkind (by decide)
  have hinter : name.kind ≠ str "interface_type" := Node.ne_of_kind hkind (by decide)
  have htype : type.kind = str "interface_type" := by
    rw [isInterface, ← List.head?_filter, hfind] at hinterface
    · by_cases hkinds : type.kind = str "struct_type" ∨ type.kind = str "interface_type"
      · rcases hkinds with htype | htype
        · rw [List.filter_cons_of_neg (by simp [hstruct, hinter]),
            List.filter_cons_of_pos (by simp [htype])] at hinterface
          exact absurd ((of_decide_eq_true hinterface).symm.trans htype) (by decide)
        · exact htype
      · rw [List.filter_cons_of_neg (by simp [hstruct, hinter]),
          List.filter_cons_of_neg (by simpa using not_or.mp hkinds)] at hinterface
        exact absurd hinterface (by simp)
    · intro c hc
      simp only [Bool.or_eq_true, decide_eq_true_eq] at hc
      rcases hc with h | h <;> rw [h] <;> decide
  have hextract : extractName source n = name.text source := by
    rw [extractName, ← List.head?_filter, hfind, List.filter_cons_of_pos (by simp [hkind])]
    · rfl
    · intro c hc
      simp only [Bool.or_eq_true, decide_eq_true_eq, or_assoc] at hc
      rcases hc with h | h | h <;> rw [h] <;> decide
  have hidentifier : type.kind ≠ str "type_identifier" := Node.ne_of_kind htype (by decide)
  have hembedded : type.kind ≠ str "embedded_interface" := Node.ne_of_kind htype (by decide)
  rw [embeddedNames, hfind, hextract, List.filter_cons_of_pos (by simp [hkind]),
    List.filter_cons_of_neg (by simp [hidentifier, hembedded])]
  · simp [hname]
  · intro c hc
    simp only [Bool.or_eq_true, decide_eq_true_eq] at hc
    rcases hc with h | h <;> rw [h] <;> decide

theorem mem_interfaceMethods (hfile : GoFile source root) (iface m : Str) :
    (iface, m) ∈ (collect handler source root).interfaceMethods ↔
      ReadsElement handler source root iface m := by
  refine (mem_collect hfile Tables.interfaceMethods (newInterfaceMethods source) rfl (fun _ => rfl)
    (fun job w p n => by rw [(visitor_effect handler source job w p n).opened]) (iface, m)).trans ⟨?_, ?_⟩
  · intro ⟨r, job, current, n, hfollow, hmem⟩
    cases job with
    | visitNode ctx =>
        by_cases hread : n.kind = str "method_elem" ∧ current ≠ [] ∧ extractName source n ≠ []
        · rw [newInterfaceMethods, if_pos hread] at hmem
          obtain ⟨rfl, rfl⟩ := Prod.mk.inj (List.mem_singleton.mp hmem)
          exact ⟨n, ⟨r, ctx, hfollow⟩, hread.1, hread.2.1, rfl, hread.2.2⟩
        · rw [newInterfaceMethods, if_neg hread] at hmem
          exact absurd hmem List.not_mem_nil
    | _ => exact absurd hmem List.not_mem_nil
  · intro ⟨n, ⟨r, ctx, hfollow⟩, hkind, hiface, hname, hne⟩
    refine ⟨r, .visitNode ctx, iface, n, hfollow, ?_⟩
    rw [newInterfaceMethods, if_pos ⟨hkind, hiface, by rw [hname]; exact hne⟩, hname]
    exact List.mem_singleton_self _

theorem mem_structMethods (hfile : GoFile source root) (stype m : Str) :
    (stype, m) ∈ (collect handler source root).structMethods ↔
      ReadsMethod handler source root stype m := by
  refine (mem_collect hfile Tables.structMethods (fun job _ => newStructMethods source job) rfl (fun _ => rfl)
    (fun job w p n => by rw [(visitor_effect handler source job w p n).opened]) (stype, m)).trans ⟨?_, ?_⟩
  · intro ⟨r, job, current, n, hfollow, hmem⟩
    cases job with
    | visitNode ctx =>
        by_cases hread : n.kind = str "method_declaration" ∧ extractName source n ≠ []
        · rw [newStructMethods, if_pos hread] at hmem
          obtain ⟨ptype, hptype, heq⟩ := List.mem_map.mp hmem
          obtain ⟨rfl, rfl⟩ := Prod.mk.inj heq
          obtain ⟨hin, hne⟩ := List.mem_filter.mp hptype
          exact ⟨current, n, ⟨r, ctx, hfollow⟩, hread.1, rfl, hread.2, hin, by simpa using hne⟩
        · rw [newStructMethods, if_neg hread] at hmem
          exact absurd hmem List.not_mem_nil
    | _ => exact absurd hmem List.not_mem_nil
  · intro ⟨current, n, ⟨r, ctx, hfollow⟩, hkind, hname, hne, hin, hstype⟩
    refine ⟨r, .visitNode ctx, current, n, hfollow, ?_⟩
    rw [newStructMethods, if_pos ⟨hkind, by rw [hname]; exact hne⟩, hname]
    exact List.mem_map.mpr ⟨stype, List.mem_filter.mpr ⟨hin, by simpa using hstype⟩, rfl⟩

/-- **An interface is recorded as embedded in itself**, and nothing else is. -/
theorem mem_interfaceEmbeds (hfile : GoFile source root) (iface emb : Str) :
    (iface, emb) ∈ (collect handler source root).interfaceEmbeds ↔
      emb = iface ∧ Opens handler source root iface := by
  refine (mem_collect hfile Tables.interfaceEmbeds (fun job _ => newInterfaceEmbeds source job) rfl (fun _ => rfl)
    (fun job w p n => by rw [(visitor_effect handler source job w p n).opened]) (iface, emb)).trans ⟨?_, ?_⟩
  · intro ⟨r, job, current, n, hfollow, hmem⟩
    by_cases hopens : opensInterface source job n = true
    · obtain ⟨ctx, rfl⟩ := typeSpec_of_opens hopens
      have hinterface : isInterface n = true := (Bool.and_eq_true_iff.mp hopens).2
      rw [newInterfaceEmbeds, if_pos hopens,
        embeddedNames_eq (spec_of_follow hfile hfollow) hinterface, List.map_singleton,
        List.mem_singleton, Prod.mk.injEq] at hmem
      exact ⟨hmem.2.trans hmem.1.symm, r, ctx, current, n, hfollow, hopens, hmem.1.symm⟩
    · rw [newInterfaceEmbeds, if_neg hopens] at hmem
      exact absurd hmem List.not_mem_nil
  · intro ⟨hemb, r, ctx, current, n, hfollow, hopens, hname⟩
    have hinterface : isInterface n = true := (Bool.and_eq_true_iff.mp hopens).2
    refine ⟨r, .typeSpec ctx, current, n, hfollow, ?_⟩
    rw [newInterfaceEmbeds, if_pos hopens,
      embeddedNames_eq (spec_of_follow hfile hfollow) hinterface, hname, hemb]
    exact List.mem_singleton_self _

end CodeScope.Visitor.GoVisitor
