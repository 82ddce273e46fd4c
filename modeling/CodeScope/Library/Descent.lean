import CodeScope.Library.SyntaxTree

/-! # Visitors that go down a tree

A visitor is a family of calls, `σ`, each made at a node: it reports something, changes its tables
`ω`, makes a call for some of the children, in order, and changes its tables once more. No child is
visited twice, so what is reported at a node is what the one call that arrives there reports
(`reports_at`), and whether and with which call it arrives is read off the path alone when the calls
follow a rule for single steps (`arrive_follow`). -/

namespace Descent

open SyntaxTree

variable {σ ω β τ : Type}

/-- What one call does at a node. `enter` is the call made for a child, if there is one. -/
structure Step (σ ω β : Type) where
  reports : List β
  opened : ω
  enter : ℕ → Node → Option σ
  closed : ω → ω

abbrev Visitor (σ ω β : Type) := σ → ω → Path → Node → Step σ ω β

mutual

/-- All reports of a call and of the calls it leads to, with the tables at the end. -/
def run (v : Visitor σ ω β) (s : σ) (w : ω) (p : Path) : Node → ω × List β
  | .mk kind named field start stop children =>
    let step := v s w p (.mk kind named field start stop children)
    let below := runAll v step.enter step.opened p 0 children
    (step.closed below.1, step.reports ++ below.2)

/-- The calls for the children from the `i`-th on. -/
def runAll (v : Visitor σ ω β) (enter : ℕ → Node → Option σ) (w : ω) (p : Path) (i : ℕ) :
    List Node → ω × List β
  | [] => (w, [])
  | c :: rest =>
    match enter i c with
    | none => runAll v enter w p (i + 1) rest
    | some s =>
      let first := run v s w (p ++ [i]) c
      let others := runAll v enter first.1 p (i + 1) rest
      (others.1, first.2 ++ others.2)

end

/-- The call that arrives at a path, with the tables it finds. -/
def arrive (v : Visitor σ ω β) (s : σ) (w : ω) (p : Path) (n : Node) :
    Path → Option (σ × ω × Node)
  | [] => some (s, w, n)
  | i :: r =>
    let step := v s w p n
    n.children[i]?.bind fun c =>
      (step.enter i c).bind fun s' =>
        arrive v s' (runAll v step.enter step.opened p 0 (n.children.take i)).1 (p ++ [i]) c r

/-- The tables when everything before a path has been visited, whether or not a call arrives. -/
def tablesAt (v : Visitor σ ω β) (s : σ) (w : ω) (p : Path) (n : Node) : Path → ω
  | [] => w
  | i :: r =>
    let step := v s w p n
    let before := (runAll v step.enter step.opened p 0 (n.children.take i)).1
    match n.children[i]? with
    | none => before
    | some c =>
      match step.enter i c with
      | none => before
      | some s' => tablesAt v s' before (p ++ [i]) c r

variable {p r : Path} {n : Node} {next : τ → Path → Node → ℕ → Node → Option τ} {b : τ × Node}

theorem arrive_tables {v : Visitor σ ω β} {s : σ} {w : ω} {a : σ × ω × Node}
    (h : arrive v s w p n r = some a) : a.2.1 = tablesAt v s w p n r := by
  induction r generalizing s w p n with
  | nil =>
      obtain rfl := Option.some.inj h
      rfl
  | cons i r ih =>
      obtain ⟨c, hc, h⟩ := Option.bind_eq_some_iff.mp h
      obtain ⟨s', henter, h⟩ := Option.bind_eq_some_iff.mp h
      rw [tablesAt, hc]
      simp only [henter]
      exact ih h

theorem arrive_find {v : Visitor σ ω β} {I : Node → Prop}
    (hnext : ∀ {n}, I n → ∀ s w p i c s', c ∈ n.children → (v s w p n).enter i c = some s' → I c)
    {s : σ} {w : ω} (hn : I n) {a : σ × ω × Node} (h : arrive v s w p n r = some a) :
    n.find r = some a.2.2 ∧ I a.2.2 := by
  induction r generalizing s w p n with
  | nil =>
      obtain rfl := Option.some.inj h
      exact ⟨rfl, hn⟩
  | cons i r ih =>
      obtain ⟨c, hc, h⟩ := Option.bind_eq_some_iff.mp h
      obtain ⟨s', henter, h⟩ := Option.bind_eq_some_iff.mp h
      rw [Node.find_cons_of_child hc]
      exact ih (hnext hn s w p i c s' (List.mem_of_getElem? hc) henter) h

theorem run_eq (v : Visitor σ ω β) (s : σ) (w : ω) (p : Path) (n : Node) :
    run v s w p n =
      ((v s w p n).closed (runAll v (v s w p n).enter (v s w p n).opened p 0 n.children).1,
        (v s w p n).reports ++
          (runAll v (v s w p n).enter (v s w p n).opened p 0 n.children).2) := by
  cases n
  rw [run, Node.children]

theorem runAll_append (v : Visitor σ ω β) (enter : ℕ → Node → Option σ) (w : ω) (p : Path) (i : ℕ)
    (front back : List Node) :
    runAll v enter w p i (front ++ back) =
      ((runAll v enter (runAll v enter w p i front).1 p (i + front.length) back).1,
        (runAll v enter w p i front).2 ++
          (runAll v enter (runAll v enter w p i front).1 p (i + front.length) back).2) := by
  induction front generalizing w i with
  | nil => simp [runAll]
  | cons c front ih =>
      rw [List.cons_append, runAll, runAll, List.length_cons,
        show i + (front.length + 1) = i + 1 + front.length by omega]
      cases enter i c with
      | none => exact ih w (i + 1)
      | some s => simp only [ih, List.append_assoc]

/-! ## Reports by their place -/

/-- On the nodes of `I`, which are not left, every report that `sel` puts at a path is made by a call
    at that path. -/
structure InPlace (v : Visitor σ ω β) (sel : Path → β → Bool) (I : Node → Prop) : Prop where
  place : ∀ {n}, I n → ∀ s w p b, b ∈ (v s w p n).reports → ∀ q, sel q b = true → q = p
  next : ∀ {n}, I n → ∀ s w p i c s', c ∈ n.children → (v s w p n).enter i c = some s' → I c

variable {v : Visitor σ ω β} {sel : Path → β → Bool} {I : Node → Prop}

mutual

theorem run_beside (hv : InPlace v sel I) (s : σ) (w : ω) (p : Path) (q : Path) (hq : ¬ p <+: q) :
    ∀ n : Node, I n → (run v s w p n).2.filter (sel q) = []
  | .mk kind named field start stop children, hn => by
    have hbelow : ∀ j, 0 ≤ j → ¬ (p ++ [j]) <+: q := fun j _ h =>
      hq ((List.prefix_append p [j]).trans h)
    rw [run, List.filter_append, runAll_beside hv _ _ _ _ q hbelow children
      fun c hc i s' hs' => hv.next hn s w p i c s' hc hs', List.append_nil,
      List.filter_eq_nil_iff]
    intro b hb hsel
    exact hq (hv.place hn s w p b hb q hsel ▸ List.prefix_rfl)

theorem runAll_beside (hv : InPlace v sel I) (enter : ℕ → Node → Option σ) (w : ω) (p : Path)
    (i : ℕ) (q : Path) (hq : ∀ j, i ≤ j → ¬ (p ++ [j]) <+: q) :
    ∀ cs : List Node, (∀ c ∈ cs, ∀ j s, enter j c = some s → I c) →
      (runAll v enter w p i cs).2.filter (sel q) = []
  | [], _ => rfl
  | c :: rest, hcs => by
    have hlater : ∀ j, i + 1 ≤ j → ¬ (p ++ [j]) <+: q := fun j hj => hq j (by omega)
    have hrest : ∀ c ∈ rest, ∀ j s, enter j c = some s → I c := fun c hc =>
      hcs c (List.mem_cons_of_mem _ hc)
    rw [runAll]
    cases henter : enter i c with
    | none => exact runAll_beside hv enter w p (i + 1) q hlater rest hrest
    | some s =>
        have hc : I c := hcs c List.mem_cons_self i s henter
        rw [List.filter_append, run_beside hv s w _ q (hq i le_rfl) c hc,
          runAll_beside hv enter _ p (i + 1) q hlater rest hrest, List.append_nil]

end

theorem not_beside {q : Path} {i k : ℕ} (hk : (p ++ [k]) <+: q) (hne : i ≠ k) :
    ¬ (p ++ [i]) <+: q := by
  intro h
  have heq := List.prefix_of_prefix_length_le h hk (by simp)
  have hlast := List.append_cancel_left (heq.eq_of_length (by simp))
  simp only [List.cons.injEq, and_true] at hlast
  exact hne hlast

/-- The children before the `k`-th report nothing below the `k`-th. -/
theorem runAll_before (hv : InPlace v sel I) (enter : ℕ → Node → Option σ) (w : ω) (p : Path)
    (i k : ℕ) (q : Path) (hq : (p ++ [k]) <+: q) (cs : List Node)
    (hcs : ∀ c ∈ cs, ∀ j s, enter j c = some s → I c) (hk : i + cs.length ≤ k) :
    (runAll v enter w p i cs).2.filter (sel q) = [] := by
  induction cs generalizing w i with
  | nil => rfl
  | cons c cs ih =>
      rw [List.length_cons] at hk
      have hrest : ∀ c ∈ cs, ∀ j s, enter j c = some s → I c := fun c hc =>
        hcs c (List.mem_cons_of_mem _ hc)
      rw [runAll]
      cases henter : enter i c with
      | none => exact ih w (i + 1) hrest (by omega)
      | some s =>
          rw [List.filter_append, run_beside hv s w _ q (not_beside hq (by omega)) c
            (hcs c List.mem_cons_self i s henter), ih _ (i + 1) hrest (by omega), List.append_nil]

/-- **What is reported at a path** is what the call that arrives there reports, and nothing when
    none does. -/
theorem reports_at (hv : InPlace v sel I) (s : σ) (w : ω) (p : Path) (n : Node) (hn : I n)
    (r : Path) :
    (run v s w p n).2.filter (sel (p ++ r)) =
      ((arrive v s w p n r).map fun a => (v a.1 a.2.1 (p ++ r) a.2.2).reports.filter
        (sel (p ++ r))).getD [] := by
  induction r generalizing s w p n with
  | nil =>
      have hbelow : ∀ j, 0 ≤ j → ¬ (p ++ [j]) <+: p := by
        intro j _ h
        have hlen := h.length_le
        rw [List.length_append, List.length_singleton] at hlen
        omega
      rw [run_eq, List.filter_append, List.append_nil, arrive, Option.map_some, Option.getD_some,
        runAll_beside hv _ _ p 0 p hbelow n.children fun c hc j s' => hv.next hn s w p j c s' hc,
        List.append_nil]
  | cons i r ih =>
      have hown : (v s w p n).reports.filter (sel (p ++ i :: r)) = [] := by
        rw [List.filter_eq_nil_iff]
        intro b hb hsel
        have heq := hv.place hn s w p b hb _ hsel
        simp at heq
      have hi : (p ++ [i]) <+: p ++ i :: r := ⟨r, by simp⟩
      have hpath : p ++ i :: r = (p ++ [i]) ++ r := by simp
      rw [run_eq, List.filter_append, hown, List.nil_append, arrive]
      cases hc : n.children[i]? with
      | none =>
          have hlen := List.getElem?_eq_none_iff.mp hc
          rw [runAll_before hv _ _ p 0 i _ hi _ (fun c hc j s' => hv.next hn s w p j c s' hc)
            (by omega)]
          rfl
      | some c =>
          obtain ⟨hlt, hget⟩ := List.getElem?_eq_some_iff.mp hc
          -- the children before the one on the path, that one, and those after it
          have hsplit : n.children = n.children.take i ++ c :: n.children.drop (i + 1) := by
            rw [← hget, ← List.drop_eq_getElem_cons hlt, List.take_append_drop]
          have hfront : (n.children.take i).length = i := List.length_take_of_le (by omega)
          have hbefore : (runAll v (v s w p n).enter (v s w p n).opened p 0
              (n.children.take i)).2.filter (sel (p ++ i :: r)) = [] :=
            runAll_before hv _ _ p 0 i _ hi _
              (fun c hc j s' => hv.next hn s w p j c s' (List.mem_of_mem_take hc)) (by omega)
          have hafter : ∀ w', (runAll v (v s w p n).enter w' p (i + 1)
              (n.children.drop (i + 1))).2.filter (sel (p ++ i :: r)) = [] := fun w' =>
            runAll_beside hv _ _ p (i + 1) _ (fun j hj => not_beside hi (by omega)) _
              fun c hc j s' => hv.next hn s w p j c s' (List.mem_of_mem_drop hc)
          conv_lhs => rw [hsplit]
          rw [runAll_append, List.filter_append, hbefore, List.nil_append, hfront, Nat.zero_add,
            runAll, Option.bind_some]
          cases henter : (v s w p n).enter i c with
          | none => exact hafter _
          | some s' =>
              rw [List.filter_append, hafter, List.append_nil, hpath,
                ih _ _ _ _ (hv.next hn s w p i c s' (List.mem_of_getElem? hc) henter),
                Option.bind_some]

/-! ## Steps that follow a rule -/

/-- Going down a path by a rule for single steps. -/
def follow (next : τ → Path → Node → ℕ → Node → Option τ) (t : τ) (p : Path) (n : Node) :
    Path → Option (τ × Node)
  | [] => some (t, n)
  | i :: r =>
    n.children[i]?.bind fun c => (next t p n i c).bind fun t' => follow next t' (p ++ [i]) c r

theorem follow_eq_some {t : τ} {i : ℕ} (h : follow next t p n (i :: r) = some b) :
    ∃ c t', n.children[i]? = some c ∧ next t p n i c = some t' ∧
      follow next t' (p ++ [i]) c r = some b := by
  obtain ⟨c, hc, h⟩ := Option.bind_eq_some_iff.mp h
  obtain ⟨t', hnext, h⟩ := Option.bind_eq_some_iff.mp h
  exact ⟨c, t', hc, hnext, h⟩

theorem follow_find {t : τ} (h : follow next t p n r = some b) : n.find r = some b.2 := by
  induction r generalizing t p n with
  | nil =>
      obtain rfl := Option.some.inj h
      rfl
  | cons i r ih =>
      obtain ⟨c, t', hc, -, h⟩ := follow_eq_some h
      rw [Node.find_cons_of_child hc]
      exact ih h

theorem follow_snoc {t : τ} {i : ℕ} (h : follow next t p n (r ++ [i]) = some b) :
    ∃ t' m, follow next t p n r = some (t', m) ∧ m.children[i]? = some b.2 ∧
      next t' (p ++ r) m i b.2 = some b.1 := by
  induction r generalizing t p n with
  | nil =>
      obtain ⟨c, t', hc, hstep, h⟩ := follow_eq_some h
      obtain rfl := Option.some.inj h
      exact ⟨t, n, rfl, hc, by rw [List.append_nil]; exact hstep⟩
  | cons j r ih =>
      obtain ⟨c, t', hc, hstep, h⟩ := follow_eq_some h
      obtain ⟨t'', m, hm, hchild, hlast⟩ := ih h
      refine ⟨t'', m, ?_, hchild, ?_⟩
      · rw [follow, hc, Option.bind_some, hstep, Option.bind_some, hm]
      · rw [← hlast, List.append_assoc, List.singleton_append]

theorem follow_innermost {isF : Node → Bool} {found : τ → Option Path}
    (hnext : ∀ t p n i c t', next t p n i c = some t' → found t' = if isF n then some p else found t)
    {t : τ} (h : follow next t p n r = some b) :
    found b.1 = n.innermostAbove isF (found t) p r := by
  induction r generalizing t p n with
  | nil =>
      obtain rfl := Option.some.inj h
      rfl
  | cons i r ih =>
      obtain ⟨c, t', hc, hstep, h⟩ := follow_eq_some h
      rw [ih h, hnext t p n i c t' hstep, Node.innermostAbove, hc]

/-- A visitor keeps to a rule: whenever a call and a state of the rule are related, they pass over
    the same children, and enter the others with a call and a state that are related again, whatever
    the tables are by then. -/
def Keeps (v : Visitor σ ω β) (next : τ → Path → Node → ℕ → Node → Option τ)
    (R : σ → Path → Node → τ → Prop) (bound : ℕ) : Prop :=
  ∀ s w p n t, R s p n t → p.length < bound → ∀ i c, n.children[i]? = some c →
    Option.Rel (fun s' t' => R s' (p ++ [i]) c t') ((v s w p n).enter i c) (next t p n i c)

/-- **A visitor that keeps to a rule arrives** where the rule leads, and nowhere else. -/
theorem arrive_follow {R : σ → Path → Node → τ → Prop} {bound : ℕ} (hkeeps : Keeps v next R bound)
    {s : σ} {t : τ} (h : R s p n t) (w : ω) (r : Path) (hr : p.length + r.length ≤ bound) :
    Option.Rel (fun a b => R a.1 (p ++ r) a.2.2 b.1 ∧ a.2.2 = b.2) (arrive v s w p n r)
      (follow next t p n r) := by
  induction r generalizing s w p n t with
  | nil =>
      rw [arrive, follow, List.append_nil]
      exact Option.Rel.some ⟨h, rfl⟩
  | cons i r ih =>
      rw [List.length_cons] at hr
      rw [arrive, follow]
      cases hc : n.children[i]? with
      | none => exact Option.Rel.none
      | some c =>
          rw [Option.bind_some, Option.bind_some]
          have hstep := hkeeps s w p n t h (by omega) i c hc
          cases henter : (v s w p n).enter i c with
          | none =>
              rw [henter] at hstep
              cases hnext : next t p n i c with
              | none => exact Option.Rel.none
              | some t' => rw [hnext] at hstep; nomatch hstep
          | some s' =>
              rw [henter] at hstep
              cases hnext : next t p n i c with
              | none => rw [hnext] at hstep; nomatch hstep
              | some t' =>
                  rw [hnext] at hstep
                  cases hstep with
                  | some hstep =>
                      rw [Option.bind_some, Option.bind_some,
                        show p ++ i :: r = (p ++ [i]) ++ r by simp]
                      exact ih hstep _ (by simp only [List.length_append, List.length_singleton]; omega)

/-- **Where the visitor arrives**: nowhere when the rule leads nowhere, else at the node there, with
    the tables that the rest of the tree before it has left. -/
theorem arrive_cases {R : σ → Path → Node → τ → Prop} {bound : ℕ} (hkeeps : Keeps v next R bound)
    {s : σ} {t : τ} (h : R s p n t) (w : ω) (hr : p.length + r.length ≤ bound) {m : Node}
    (hm : n.find r = some m) :
    (follow next t p n r = none ∧ arrive v s w p n r = none) ∨
      ∃ t' s', follow next t p n r = some (t', m) ∧
        arrive v s w p n r = some (s', tablesAt v s w p n r, m) ∧ R s' (p ++ r) m t' := by
  have harrive := arrive_follow hkeeps h w r hr
  cases hfollow : follow next t p n r with
  | none =>
      rw [hfollow] at harrive
      refine Or.inl ⟨rfl, ?_⟩
      generalize arrive v s w p n r = arrived at harrive ⊢
      cases harrive
      rfl
  | some b =>
      have hb : b.2 = m := Option.some.inj ((follow_find hfollow).symm.trans hm)
      cases harrived : arrive v s w p n r with
      | none => rw [hfollow, harrived] at harrive; nomatch harrive
      | some a =>
          have htables := arrive_tables harrived
          rw [hfollow, harrived] at harrive
          cases harrive with
          | some hrel =>
              obtain ⟨s', w', m'⟩ := a
              obtain ⟨t', m''⟩ := b
              obtain rfl : m'' = m := hb
              obtain rfl : m' = m'' := hrel.2
              obtain rfl : w' = tablesAt v s w p n r := htables
              exact Or.inr ⟨t', s', rfl, rfl, hrel.1⟩

/-! ## Tables that only grow -/

section Log

variable {γ : Type} (log : ω → List γ) (added : σ → ω → Path → Node → List γ)

mutual

/-- **What a visit enters into a table** that only grows is what the calls enter that arrive
    somewhere. -/
theorem mem_log (hopen : ∀ s w p n, log (v s w p n).opened = log w ++ added s w p n)
    (hclose : ∀ s w p n w', log ((v s w p n).closed w') = log w') (b : γ) (s : σ) (w : ω)
    (p : Path) :
    ∀ n : Node, b ∈ log (run v s w p n).1 ↔
      b ∈ log w ∨ ∃ r a, arrive v s w p n r = some a ∧ b ∈ added a.1 a.2.1 (p ++ r) a.2.2
  | .mk kind named field start stop children => by
    rw [run]
    show b ∈ log ((v s w p _).closed _) ↔ _
    rw [hclose, mem_logAll hopen hclose b, hopen, List.mem_append, or_assoc]
    refine or_congr Iff.rfl ⟨?_, ?_⟩
    · intro h
      rcases h with h | ⟨j, c, s', r, a, hc, henter, harrive, hb⟩
      · exact ⟨[], _, rfl, by rw [List.append_nil]; exact h⟩
      · refine ⟨j :: r, a, ?_, by simpa using hb⟩
        rw [arrive, Node.children, hc, Option.bind_some]
        rw [Nat.zero_add] at henter harrive
        rw [henter, Option.bind_some, harrive]
    · intro ⟨r, a, harrive, hb⟩
      cases r with
      | nil =>
          obtain rfl := Option.some.inj harrive
          rw [List.append_nil] at hb
          exact Or.inl hb
      | cons j r =>
          obtain ⟨c, hc, harrive⟩ := Option.bind_eq_some_iff.mp harrive
          obtain ⟨s', henter, harrive⟩ := Option.bind_eq_some_iff.mp harrive
          refine Or.inr ⟨j, c, s', r, a, hc, ?_, ?_, by simpa using hb⟩
          · rw [Nat.zero_add]; exact henter
          · rw [Nat.zero_add]; exact harrive

theorem mem_logAll (hopen : ∀ s w p n, log (v s w p n).opened = log w ++ added s w p n)
    (hclose : ∀ s w p n w', log ((v s w p n).closed w') = log w') (b : γ)
    (enter : ℕ → Node → Option σ) (w : ω) (p : Path) (i : ℕ) :
    ∀ cs : List Node, b ∈ log (runAll v enter w p i cs).1 ↔
      b ∈ log w ∨ ∃ j c s' r a, cs[j]? = some c ∧ enter (i + j) c = some s' ∧
        arrive v s' (runAll v enter w p i (cs.take j)).1 (p ++ [i + j]) c r = some a ∧
        b ∈ added a.1 a.2.1 (p ++ [i + j] ++ r) a.2.2
  | [] => by simp [runAll]
  | c :: rest => by
    -- an entry is made in the first child or in a later one
    have hsplit : ∀ P : ℕ → Node → Prop, (∃ j d, (c :: rest)[j]? = some d ∧ P j d) ↔
        P 0 c ∨ ∃ j d, rest[j]? = some d ∧ P (j + 1) d := by
      intro P
      constructor
      · intro ⟨j, d, hd, hP⟩
        cases j with
        | zero =>
            obtain rfl := Option.some.inj hd
            exact Or.inl hP
        | succ j => exact Or.inr ⟨j, d, hd, hP⟩
      · intro h
        rcases h with h | ⟨j, d, hd, h⟩
        · exact ⟨0, c, rfl, h⟩
        · exact ⟨j + 1, d, hd, h⟩
    have hshape : ∀ w, (∃ j d s' r a, (c :: rest)[j]? = some d ∧ enter (i + j) d = some s' ∧
        arrive v s' (runAll v enter w p i ((c :: rest).take j)).1 (p ++ [i + j]) d r = some a ∧
        b ∈ added a.1 a.2.1 (p ++ [i + j] ++ r) a.2.2) ↔
      ∃ j d, (c :: rest)[j]? = some d ∧ ∃ s' r a, enter (i + j) d = some s' ∧
        arrive v s' (runAll v enter w p i ((c :: rest).take j)).1 (p ++ [i + j]) d r = some a ∧
        b ∈ added a.1 a.2.1 (p ++ [i + j] ++ r) a.2.2 := by
      intro w
      constructor
      · exact fun ⟨j, d, s', r, a, hd, h⟩ => ⟨j, d, hd, s', r, a, h⟩
      · exact fun ⟨j, d, hd, s', r, a, h⟩ => ⟨j, d, s', r, a, hd, h⟩
    obtain ⟨k, hk⟩ : ∃ k, k = i + 1 := ⟨_, rfl⟩
    have hnext : ∀ j, i + (j + 1) = k + j := fun j => by omega
    rw [hshape, hsplit, Nat.add_zero]
    simp only [hnext]
    rw [runAll, ← hk]
    cases henter : enter i c with
    | none =>
        have htake : ∀ j, (runAll v enter w p i ((c :: rest).take (j + 1))).1 =
            (runAll v enter w p k (rest.take j)).1 := fun j => by
          rw [List.take_succ_cons, runAll, henter, hk]
        simp only [htake]
        rw [mem_logAll hopen hclose b enter w p k rest]
        refine or_congr Iff.rfl ⟨?_, ?_⟩
        · exact fun ⟨j, d, s', r, a, hd, h⟩ => Or.inr ⟨j, d, hd, s', r, a, h⟩
        · intro h
          rcases h with ⟨s', _, _, hs', _⟩ | ⟨j, d, hd, s', r, a, h⟩
          · exact absurd hs' (by simp)
          · exact ⟨j, d, s', r, a, hd, h⟩
    | some s =>
        have htake : ∀ j, (runAll v enter w p i ((c :: rest).take (j + 1))).1 =
            (runAll v enter (run v s w (p ++ [i]) c).1 p k (rest.take j)).1 := fun j => by
          rw [List.take_succ_cons, runAll, henter, hk]
        simp only [htake]
        rw [mem_logAll hopen hclose b enter _ p k rest, mem_log hopen hclose b s w _ c,
          or_assoc]
        refine or_congr Iff.rfl (or_congr ⟨?_, ?_⟩ ⟨?_, ?_⟩)
        · exact fun ⟨r, a, harrive, hb⟩ => ⟨s, r, a, rfl, harrive, hb⟩
        · intro ⟨s', r, a, hs', harrive, hb⟩
          obtain rfl : s = s' := Option.some.inj hs'
          exact ⟨r, a, harrive, hb⟩
        · exact fun ⟨j, d, s', r, a, hd, h⟩ => ⟨j, d, hd, s', r, a, h⟩
        · exact fun ⟨j, d, hd, s', r, a, h⟩ => ⟨j, d, s', r, a, hd, h⟩

end

end Log

/-! ## A value that is set and put back -/

section Bracket

variable {f : ω → τ} {I : σ → τ → Node → Prop}

/-- On the calls of `I`, each call puts back the value that it found. -/
structure Brackets (v : Visitor σ ω β) (f : ω → τ) (I : σ → τ → Node → Prop) : Prop where
  back : ∀ {s w n}, I s (f w) n → ∀ p w', f w' = f (v s w p n).opened →
    f ((v s w p n).closed w') = f w
  next : ∀ {s w n}, I s (f w) n → ∀ p i c s', c ∈ n.children → (v s w p n).enter i c = some s' →
    I s' (f (v s w p n).opened) c

mutual

theorem run_bracket (hv : Brackets v f I) (s : σ) (w : ω) (p : Path) :
    ∀ n : Node, I s (f w) n → f (run v s w p n).1 = f w
  | .mk kind named field start stop children, hn => by
    rw [run]
    exact hv.back hn p _ (runAll_bracket hv _ _ p 0 children
      fun c hc i s' henter => hv.next hn p i c s' hc henter)

theorem runAll_bracket (hv : Brackets v f I) (enter : ℕ → Node → Option σ) (w : ω) (p : Path)
    (i : ℕ) :
    ∀ cs : List Node, (∀ c ∈ cs, ∀ j s', enter j c = some s' → I s' (f w) c) →
      f (runAll v enter w p i cs).1 = f w
  | [], _ => rfl
  | c :: rest, hcs => by
    have hrest : ∀ d ∈ rest, ∀ j s', enter j d = some s' → I s' (f w) d := fun d hd =>
      hcs d (List.mem_cons_of_mem _ hd)
    rw [runAll]
    cases henter : enter i c with
    | none => exact runAll_bracket hv enter w p (i + 1) rest hrest
    | some s =>
        have hfirst := run_bracket hv s w (p ++ [i]) c (hcs c List.mem_cons_self i s henter)
        show f (runAll v enter (run v s w (p ++ [i]) c).1 p (i + 1) rest).1 = f w
        rw [runAll_bracket hv enter _ p (i + 1) rest (by rw [hfirst]; exact hrest), hfirst]

end

/-- **Where a visit arrives**, and with which value, when both depend on the value alone: the
    siblings before the path leave no trace. -/
theorem arrive_bracket (hv : Brackets v f I) {next : σ × τ → Path → Node → ℕ → Node → Option (σ × τ)}
    (hnext : ∀ s w p n i c, next (s, f w) p n i c =
      ((v s w p n).enter i c).map fun s' => (s', f (v s w p n).opened))
    {s : σ} {w : ω} {p : Path} {n : Node} (hn : I s (f w) n) (r : Path) :
    (arrive v s w p n r).map (fun a => ((a.1, f a.2.1), a.2.2)) = follow next (s, f w) p n r := by
  induction r generalizing s w p n with
  | nil => rfl
  | cons i r ih =>
      rw [arrive, follow]
      cases hc : n.children[i]? with
      | none => rfl
      | some c =>
          rw [Option.bind_some, Option.bind_some, hnext]
          cases henter : (v s w p n).enter i c with
          | none => rfl
          | some s' =>
              have hmem := List.mem_of_getElem? hc
              have hbefore : f (runAll v (v s w p n).enter (v s w p n).opened p 0
                  (n.children.take i)).1 = f (v s w p n).opened :=
                runAll_bracket hv _ _ p 0 _ fun d hd j s'' hs'' =>
                  hv.next hn p j d s'' (List.mem_of_mem_take hd) hs''
              have hin : I s' (f (runAll v (v s w p n).enter (v s w p n).opened p 0
                  (n.children.take i)).1) c := by
                rw [hbefore]
                exact hv.next hn p i c s' hmem henter
              rw [Option.bind_some, Option.map_some, Option.bind_some, ih hin, hbefore]

end Bracket

end Descent
