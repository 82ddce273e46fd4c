import CodeScope.Library.Descent

/-! # A stack of scopes along a visit

Some calls of a visitor open a scope: they push a name onto a stack before they go on to the
children and pop the stack afterwards. A scope without a name pushes nothing, but it pops all the
same. Every such scope costs the stack one of the names that were there before (`stack_after`), and
what a call finds on the stack is told by the scopes around it and the nameless ones before it. -/

namespace ScopeStack

open SyntaxTree Descent

variable {σ β κ : Type}

/-- The stack after a scope has been opened: `none` for a call that opens none, `some none` for a
    scope without a name. -/
def pushed (scope : Option (Option κ)) (stack : List κ) : List κ :=
  match scope with
  | some (some name) => name :: stack
  | _ => stack

/-- The stack after the scope has been closed. -/
def popped (scope : Option (Option κ)) (stack : List κ) : List κ :=
  match scope with
  | some _ => stack.tail
  | none => stack

variable (enter : σ → Path → Node → ℕ → Node → Option σ)
  (scope : σ → Path → Node → Option (Option κ))

/-- The visitor that keeps the stack; a report may depend on it. -/
def stacked (reports : σ → List κ → Path → Node → List β) : Visitor σ (List κ) β :=
  fun s stack p n =>
    { reports := reports s stack p n
      opened := pushed (scope s p n) stack
      enter := enter s p n
      closed := popped (scope s p n) }

/-- The place of a scope, if that has no name. -/
def namelessAt (scope : Option (Option κ)) (p : Path) : List Path :=
  match scope with
  | some none => [p]
  | _ => []

/-- The scopes without a name, in the order they are opened. -/
def nameless : Visitor σ Unit Path := fun s _ p n =>
  { reports := namelessAt (scope s p n) p
    opened := ()
    enter := enter s p n
    closed := id }

variable {enter scope} {reports : σ → List κ → Path → Node → List β}

mutual

/-- **After a visit the stack is what it was**, less a name for every nameless scope. -/
theorem stack_after (s : σ) (stack : List κ) (p : Path) :
    ∀ n : Node, (run (stacked enter scope reports) s stack p n).1 =
      stack.drop (run (nameless enter scope) s () p n).2.length
  | .mk kind named field start stop children => by
    rw [run, run]
    show popped (scope s p _) (runAll _ (enter s p _) (pushed (scope s p _) stack) p 0 children).1 =
      stack.drop (namelessAt (scope s p _) p ++ (runAll _ (enter s p _) () p 0 children).2).length
    rw [stack_afterAll]
    cases scope s p (.mk kind named field start stop children) with
    | none => rfl
    | some name =>
        cases name with
        | none =>
            show (stack.drop _).tail = stack.drop ([p] ++ _).length
            rw [List.tail_drop, List.length_append, List.length_singleton, Nat.add_comm]
        | some name =>
            show ((name :: stack).drop _).tail = stack.drop ([] ++ _).length
            rw [List.tail_drop, List.drop_succ_cons, List.nil_append]

theorem stack_afterAll (enterAll : ℕ → Node → Option σ) (stack : List κ) (p : Path) (i : ℕ) :
    ∀ cs : List Node, (runAll (stacked enter scope reports) enterAll stack p i cs).1 =
      stack.drop (runAll (nameless enter scope) enterAll () p i cs).2.length
  | [] => rfl
  | c :: rest => by
    rw [runAll, runAll]
    cases enterAll i c with
    | none => exact stack_afterAll enterAll stack p (i + 1) rest
    | some s =>
        show (runAll _ enterAll (run _ s stack (p ++ [i]) c).1 p (i + 1) rest).1 = _
        rw [stack_afterAll, stack_after, List.drop_drop, List.length_append]

end

/-- The nameless scopes that are visited before a path, those around it left out. -/
def namelessBefore (enter : σ → Path → Node → ℕ → Node → Option σ)
    (scope : σ → Path → Node → Option (Option κ)) (s : σ) (p : Path) (n : Node) : Path → ℕ
  | [] => 0
  | i :: r =>
    (runAll (nameless enter scope) (enter s p n) () p 0 (n.children.take i)).2.length +
      match n.children[i]? with
      | none => 0
      | some c =>
        match enter s p n i c with
        | none => 0
        | some s' => namelessBefore enter scope s' (p ++ [i]) c r

mutual

theorem nameless_nil (s : σ) (p : Path) :
    ∀ n : Node, (n.Everywhere fun m => ∀ s p, scope s p m ≠ some none) →
      (run (nameless enter scope) s () p n).2 = []
  | .mk kind named field start stop children, h => by
    rw [run]
    show namelessAt (scope s p _) p ++ (runAll _ (enter s p _) () p 0 children).2 = []
    rw [nameless_nilAll _ p 0 children fun c hc => h.of_mem hc, List.append_nil]
    have hself := h.self s p
    cases hscope : scope s p (.mk kind named field start stop children) with
    | none => rfl
    | some name =>
        cases name with
        | none => exact absurd hscope hself
        | some _ => rfl

theorem nameless_nilAll (enterAll : ℕ → Node → Option σ) (p : Path) (i : ℕ) :
    ∀ cs : List Node, (∀ c ∈ cs, c.Everywhere fun m => ∀ s p, scope s p m ≠ some none) →
      (runAll (nameless enter scope) enterAll () p i cs).2 = []
  | [], _ => rfl
  | c :: rest, h => by
    have hrest := nameless_nilAll enterAll p (i + 1) rest fun c hc => h c (List.mem_cons_of_mem _ hc)
    rw [runAll]
    cases enterAll i c with
    | none => exact hrest
    | some s =>
        show (run _ s () (p ++ [i]) c).2 ++ (runAll _ enterAll () p (i + 1) rest).2 = []
        rw [nameless_nil s _ c (h c List.mem_cons_self), hrest, List.append_nil]

end

/-- Where no scope is nameless none comes before anything. -/
theorem namelessBefore_eq_zero {s : σ} {p : Path} {n : Node}
    (h : ∀ c ∈ n.children, c.Everywhere fun m => ∀ s p, scope s p m ≠ some none) (r : Path) :
    namelessBefore enter scope s p n r = 0 := by
  induction r generalizing s p n with
  | nil => rfl
  | cons i r ih =>
      rw [namelessBefore, nameless_nilAll _ p 0 _ fun c hc => h c (List.mem_of_mem_take hc)]
      cases hc : n.children[i]? with
      | none => rfl
      | some c =>
          cases henter : enter s p n i c with
          | none => simp [henter]
          | some s' =>
              simp only [henter, List.length_nil, Nat.zero_add]
              exact ih fun d hd => (h c (List.mem_of_getElem? hc)).of_mem hd

theorem arrive_stacked (s : σ) (stack : List κ) (p : Path) (n : Node) (r : Path) :
    (arrive (stacked enter scope reports) s stack p n r).map (fun a => (a.1, a.2.2)) =
      (arrive (nameless enter scope) s () p n r).map fun a => (a.1, a.2.2) := by
  induction r generalizing s stack p n with
  | nil => rfl
  | cons i r ih =>
      rw [arrive, arrive]
      cases n.children[i]? with
      | none => rfl
      | some c =>
          show Option.map _ ((enter s p n i c).bind _) = Option.map _ ((enter s p n i c).bind _)
          cases enter s p n i c with
          | none => rfl
          | some s' => exact ih _ _ _ _

variable {a : σ × List κ × Node}

/-- **What a call finds on the stack** when no scope is opened on the way to it. -/
theorem stack_at {s : σ} {stack : List κ} {p : Path} {n : Node} {r : Path}
    (harrive : arrive (stacked enter scope reports) s stack p n r = some a)
    (hplain : ∀ q s' m, q <+: r → q ≠ r → arrive (nameless enter scope) s () p n q = some (s', (), m) → scope s' (p ++ q) m = none) :
    a.2.1 = stack.drop (namelessBefore enter scope s p n r) := by
  induction r generalizing s stack p n with
  | nil =>
      obtain rfl := Option.some.inj harrive
      rfl
  | cons i r ih =>
      have hhere := hplain [] s n List.nil_prefix (by simp) rfl
      rw [List.append_nil] at hhere
      obtain ⟨c, hc, harrive⟩ := Option.bind_eq_some_iff.mp harrive
      obtain ⟨s', henter, harrive⟩ := Option.bind_eq_some_iff.mp harrive
      replace henter : enter s p n i c = some s' := henter
      replace harrive : arrive (stacked enter scope reports) s'
          (runAll (stacked enter scope reports) (enter s p n) (pushed (scope s p n) stack) p 0
            (n.children.take i)).1 (p ++ [i]) c r = some a := harrive
      rw [hhere, stack_afterAll] at harrive
      rw [namelessBefore, hc]
      simp only [henter]
      rw [ih harrive, List.drop_drop]
      · rfl
      · intro q s'' m hq hne hm
        have hsplit : p ++ i :: q = (p ++ [i]) ++ q := by simp
        rw [← hsplit]
        refine hplain (i :: q) s'' m (List.cons_prefix_cons.mpr ⟨rfl, hq⟩) (by simpa using hne) ?_
        rw [arrive, hc, Option.bind_some]
        show (enter s p n i c).bind _ = _
        rw [henter, Option.bind_some]
        exact hm

theorem arrive_find {v : Visitor σ (List κ) β} {s : σ} {stack : List κ} {p : Path} {n : Node}
    {r : Path} (h : arrive v s stack p n r = some a) : n.find r = some a.2.2 := by
  induction r generalizing s stack p n with
  | nil =>
      obtain rfl := Option.some.inj h
      rfl
  | cons i r ih =>
      obtain ⟨c, hc, h⟩ := Option.bind_eq_some_iff.mp h
      obtain ⟨s', _, h⟩ := Option.bind_eq_some_iff.mp h
      rw [Node.find_cons_of_child hc]
      exact ih h

/-- The same below a call that may open a scope itself. -/
theorem stack_below {s : σ} {stack : List κ} {p : Path} {n : Node} {i : ℕ} {r : Path}
    (harrive : arrive (stacked enter scope reports) s stack p n (i :: r) = some a)
    (hplain : ∀ q m, q ≠ [] → q <+: i :: r → q ≠ i :: r → n.find q = some m → ∀ s' p', scope s' p' m = none) :
    a.2.1 = (pushed (scope s p n) stack).drop (namelessBefore enter scope s p n (i :: r)) := by
  obtain ⟨c, hc, harrive⟩ := Option.bind_eq_some_iff.mp harrive
  obtain ⟨s', henter, harrive⟩ := Option.bind_eq_some_iff.mp harrive
  replace henter : enter s p n i c = some s' := henter
  replace harrive : arrive (stacked enter scope reports) s'
      (runAll (stacked enter scope reports) (enter s p n) (pushed (scope s p n) stack) p 0
        (n.children.take i)).1 (p ++ [i]) c r = some a := harrive
  rw [stack_afterAll] at harrive
  rw [namelessBefore, hc]
  simp only [henter]
  rw [stack_at harrive, List.drop_drop]
  intro q s'' m hq hne hm
  have hmap : (arrive (stacked enter scope reports) s' [] (p ++ [i]) c q).map
      (fun a => (a.1, a.2.2)) = some (s'', m) := by
    rw [arrive_stacked, hm]
    rfl
  obtain ⟨b, hb, hbm⟩ := Option.map_eq_some_iff.mp hmap
  have hfind := arrive_find hb
  refine hplain (i :: q) m (by simp) (List.cons_prefix_cons.mpr ⟨rfl, hq⟩) (by simpa using hne) ?_
    s'' _
  rw [Node.find_cons_of_child hc, hfind]
  exact congrArg some (Prod.mk.inj hbm).2

theorem inPlace_stacked {place : β → Path}
    (hplace : ∀ s stack p n, ∀ b ∈ reports s stack p n, place b = p) :
    InPlace (stacked enter scope reports) (fun q b => decide (place b = q)) fun _ => True where
  place := by
    intro n _ s stack p b hb q hsel
    exact (of_decide_eq_true hsel).symm.trans (hplace s stack p n b hb)
  next := fun _ _ _ _ _ _ _ _ _ => trivial

end ScopeStack
