import CodeScope.Library.Text

/-! # Syntax trees

The nodes of a concrete syntax tree have a kind, are named or anonymous, may stand in a field of
their parent, and cover a range of the source. A node is found by its path, the indices of the
children from the root down, so that equal nodes at two places stay apart. -/

namespace SyntaxTree

open Text (Str)

abbrev Path := List ℕ

/-- A node with the nodes below it. -/
inductive Node where
  | mk (kind : Str) (named : Bool) (field : Option Str) (start stop : ℕ) (children : List Node)

namespace Node

def kind : Node → Str
  | mk kind _ _ _ _ _ => kind

def named : Node → Bool
  | mk _ named _ _ _ _ => named

/-- The field of the parent in which the node stands. -/
def field : Node → Option Str
  | mk _ _ field _ _ _ => field

def start : Node → ℕ
  | mk _ _ _ start _ _ => start

def stop : Node → ℕ
  | mk _ _ _ _ stop _ => stop

def children : Node → List Node
  | mk _ _ _ _ _ children => children

/-- What the node covers of the source. -/
def text (source : Str) (n : Node) : Str := (source.drop n.start).take (n.stop - n.start)

def namedChildren (n : Node) : List Node := n.children.filter named

/-- The first child in a field. -/
def childByField (n : Node) (field : Str) : Option Node :=
  n.children.find? fun c => c.field = some field

/-- The children in a field. -/
def inField (n : Node) (field : Str) : List Node := n.children.filter fun c => c.field = some field

variable {n c : Node} {field : Str} {isF : Node → Bool} {P : Node → Prop}

theorem childByField_of_inField (h : n.inField field = [c]) : n.childByField field = some c := by
  rw [childByField, ← List.head?_filter]
  exact congrArg List.head? h

theorem eq_of_inField {d : Node} (h : n.inField field = [c]) (hd : d ∈ n.children)
    (hfield : d.field = some field) : d = c := by
  have hmem : d ∈ n.inField field := List.mem_filter.mpr ⟨hd, by simpa using hfield⟩
  rw [h] at hmem
  exact List.mem_singleton.mp hmem

theorem inField_eq_singleton (hone : (n.inField field).length = 1) (hc : c ∈ n.children)
    (hfield : c.field = some field) : n.inField field = [c] := by
  obtain ⟨d, hd⟩ := List.length_eq_one_iff.mp hone
  rw [hd, eq_of_inField hd hc hfield]

/-- The first named child in a field. -/
def namedByField (n : Node) (field : Str) : Option Node :=
  n.namedChildren.find? fun c => c.field = some field

/-- One named child stands in the field. -/
def OneNamed (n : Node) (field : Str) : Prop :=
  (n.namedChildren.filter fun c => c.field = some field).length = 1

instance (n : Node) (field : Str) : Decidable (n.OneNamed field) :=
  inferInstanceAs (Decidable (_ = _))

theorem OneNamed.namedByField_eq (h : n.OneNamed field) (hc : c ∈ n.namedChildren)
    (hfield : c.field = some field) : n.namedByField field = some c := by
  obtain ⟨d, hd⟩ := List.length_eq_one_iff.mp h
  have hmem : c ∈ n.namedChildren.filter fun c => c.field = some field :=
    List.mem_filter.mpr ⟨hc, by simpa using hfield⟩
  rw [hd] at hmem
  rw [namedByField, ← List.head?_filter, hd, List.mem_singleton.mp hmem]
  rfl

theorem OneNamed.eq {d : Node} (h : n.OneNamed field) (hc : c ∈ n.namedChildren)
    (hcfield : c.field = some field) (hd : d ∈ n.namedChildren) (hdfield : d.field = some field) :
    d = c :=
  Option.some.inj ((h.namedByField_eq hd hdfield).symm.trans (h.namedByField_eq hc hcfield))

/-- The node at a path. -/
def find (n : Node) : Path → Option Node
  | [] => some n
  | i :: r => n.children[i]?.bind fun c => c.find r

@[simp] theorem find_nil (n : Node) : n.find [] = some n := rfl

theorem find_cons (n : Node) (i : ℕ) (r : Path) :
    n.find (i :: r) = n.children[i]?.bind fun c => c.find r := rfl

theorem find_cons_of_child {i : ℕ} (h : n.children[i]? = some c) (r : Path) :
    n.find (i :: r) = c.find r := by
  rw [find_cons, h, Option.bind_some]

theorem find_cons_eq_some {m : Node} {i : ℕ} {r : Path} (h : n.find (i :: r) = some m) :
    ∃ c, n.children[i]? = some c ∧ c.find r = some m := by
  rw [find_cons] at h
  exact Option.bind_eq_some_iff.mp h

theorem find_append (n : Node) (p q : Path) :
    n.find (p ++ q) = (n.find p).bind fun m => m.find q := by
  induction p generalizing n with
  | nil => rfl
  | cons i p ih =>
      rw [List.cons_append, find_cons, find_cons]
      cases n.children[i]? with
      | none => rfl
      | some c => exact ih c

/-- The path of the innermost node above the end of a path that satisfies `isF`: of those on the way
    down, the last. The node itself stands at `p`, and `found` is what was found above it. -/
def innermostAbove (isF : Node → Bool) (found : Option Path) (p : Path) (n : Node) :
    Path → Option Path
  | [] => found
  | i :: r =>
    match n.children[i]? with
    | none => found
    | some c => innermostAbove isF (if isF n then some p else found) (p ++ [i]) c r

/-- Below a node that satisfies `isF` there is an innermost one. -/
theorem innermostAbove_isSome {m : Node} {q rest : Path} {j : ℕ} (hq : n.find q = some m)
    (hm : isF m = true) (hj : (m.children[j]?).isSome) (found : Option Path) (p : Path) :
    (n.innermostAbove isF found p (q ++ j :: rest)).isSome := by
  have hstays : ∀ (r : Path) (m : Node) (p : Path) (found : Option Path), found.isSome →
      (m.innermostAbove isF found p r).isSome := by
    intro r
    induction r with
    | nil => exact fun _ _ _ h => h
    | cons i r ih =>
        intro m p found h
        rw [innermostAbove]
        cases m.children[i]? with
        | none => exact h
        | some c =>
            refine ih c _ _ ?_
            split
            · rfl
            · exact h
  induction q generalizing n found p with
  | nil =>
      obtain rfl := Option.some.inj hq
      obtain ⟨c, hc⟩ := Option.isSome_iff_exists.mp hj
      rw [List.nil_append, innermostAbove, hc]
      exact hstays rest c _ _ (by rw [if_pos hm]; rfl)
  | cons i q ih =>
      obtain ⟨c, hc, hq⟩ := find_cons_eq_some hq
      rw [List.cons_append, innermostAbove, hc]
      exact ih hq _ _

/-- What is found above counts only where nothing is found on the way. -/
theorem innermostAbove_found (isF : Node → Bool) (found : Option Path) (p : Path) (n : Node)
    (r : Path) :
    n.innermostAbove isF found p r = (n.innermostAbove isF none p r <|> found) := by
  induction r generalizing n p found with
  | nil => rfl
  | cons i r ih =>
      rw [innermostAbove, innermostAbove]
      cases n.children[i]? with
      | none => rfl
      | some c =>
          show innermostAbove isF _ _ c r = (innermostAbove isF _ _ c r <|> found)
          rw [ih, ih (if isF n then some p else none)]
          cases innermostAbove isF none (p ++ [i]) c r with
          | some _ => rfl
          | none =>
              by_cases hn : isF n = true
              · rw [if_pos hn, if_pos hn]
                rfl
              · rw [if_neg hn, if_neg hn]
                rfl

/-- What is found on the way down stands above the end of the path and satisfies `isF`. -/
theorem innermostAbove_spec {p q : Path} {r : Path} (h : n.innermostAbove isF none p r = some q) :
    ∃ s m, q = p ++ s ∧ s <+: r ∧ s ≠ r ∧ n.find s = some m ∧ isF m = true := by
  induction r generalizing n p with
  | nil => exact absurd h (by simp [innermostAbove])
  | cons i r ih =>
      rw [innermostAbove] at h
      cases hc : n.children[i]? with
      | none => rw [hc] at h; exact absurd h (by simp)
      | some c =>
          simp only [hc] at h
          rw [innermostAbove_found] at h
          cases hbelow : c.innermostAbove isF none (p ++ [i]) r with
          | some q' =>
              rw [hbelow] at h
              obtain rfl := Option.some.inj h
              obtain ⟨s, m, rfl, hprefix, hne, hm, hF⟩ := ih hbelow
              refine ⟨i :: s, m, by simp, ?_, by simpa using hne, ?_, hF⟩
              · exact List.cons_prefix_cons.mpr ⟨rfl, hprefix⟩
              · rw [find_cons_of_child hc, hm]
          | none =>
              rw [hbelow] at h
              by_cases hn : isF n = true
              · rw [if_pos hn] at h
                obtain rfl : p = q := Option.some.inj h
                exact ⟨[], n, by simp, List.nil_prefix, by simp, rfl, hn⟩
              · rw [if_neg hn] at h
                exact absurd h (by simp)

/-- Of fewer nodes none is found where none of more is. -/
theorem innermostAbove_none_of_imp {isG : Node → Bool} (himp : ∀ m, isG m = true → isF m = true)
    {p : Path} {r : Path} (h : n.innermostAbove isF none p r = none) :
    n.innermostAbove isG none p r = none := by
  induction r generalizing n p with
  | nil => rfl
  | cons i r ih =>
      rw [innermostAbove] at h ⊢
      cases hc : n.children[i]? with
      | none => rfl
      | some c =>
          simp only [hc] at h ⊢
          rw [innermostAbove_found] at h ⊢
          cases hbelow : c.innermostAbove isF none (p ++ [i]) r with
          | some q => rw [hbelow] at h; exact absurd h (by simp)
          | none =>
              rw [hbelow] at h
              have hn : ¬ isG n = true := by
                intro hG
                rw [if_pos (himp n hG)] at h
                exact absurd h (by simp)
              rw [ih hbelow, if_neg hn]
              rfl

/-- The innermost of more nodes is the innermost of fewer if it is one of them. -/
theorem innermostAbove_of_imp {isG : Node → Bool} (himp : ∀ m, isG m = true → isF m = true)
    {p s : Path} {m : Node} {r : Path} (h : n.innermostAbove isF none p r = some (p ++ s))
    (hm : n.find s = some m) (hG : isG m = true) :
    n.innermostAbove isG none p r = some (p ++ s) := by
  induction r generalizing n p s with
  | nil => exact absurd h (by simp [innermostAbove])
  | cons i r ih =>
      rw [innermostAbove] at h ⊢
      cases hc : n.children[i]? with
      | none => rw [hc] at h; exact absurd h (by simp)
      | some c =>
          simp only [hc] at h ⊢
          rw [innermostAbove_found] at h ⊢
          cases hbelow : c.innermostAbove isF none (p ++ [i]) r with
          | some q =>
              rw [hbelow] at h
              obtain rfl : q = p ++ s := Option.some.inj h
              obtain ⟨s', -, heq, -⟩ := innermostAbove_spec hbelow
              rw [List.append_assoc] at heq
              obtain rfl := List.append_cancel_left heq
              have hm' : c.find s' = some m := by
                rw [← hm]
                exact (find_cons_of_child hc s').symm
              have hsplit : p ++ ([i] ++ s') = (p ++ [i]) ++ s' := by simp
              rw [hsplit] at hbelow ⊢
              rw [ih hbelow hm']
              rfl
          | none =>
              rw [hbelow] at h
              have hs : s = [] := by
                by_cases hn : isF n = true
                · rw [if_pos hn] at h
                  have heq : p = p ++ s := Option.some.inj h
                  simpa using heq
                · rw [if_neg hn] at h
                  exact absurd h (by simp)
              subst hs
              obtain rfl : n = m := Option.some.inj hm
              rw [innermostAbove_none_of_imp himp hbelow, if_pos hG, List.append_nil]
              rfl

theorem ne_of_kind {k k' : Str} (h : n.kind = k) (hne : k ≠ k') : n.kind ≠ k' := by
  rw [h]
  exact hne

/-! ## What holds of every node -/

/-- `P` holds of the node and of every node below it. -/
def Everywhere (P : Node → Prop) (n : Node) : Prop := ∀ p m, n.find p = some m → P m

theorem Everywhere.self (h : n.Everywhere P) : P n := h [] n rfl

theorem Everywhere.child {i : ℕ} (h : n.Everywhere P) (hc : n.children[i]? = some c) :
    c.Everywhere P := fun r m hm =>
  h (i :: r) m (by rw [find_cons_of_child hc, hm])

theorem Everywhere.of_mem (h : n.Everywhere P) (hc : c ∈ n.children) : c.Everywhere P := by
  obtain ⟨i, hi⟩ := List.getElem?_of_mem hc
  exact h.child hi

theorem Everywhere.find {m : Node} {p : Path} (h : n.Everywhere P) (hm : n.find p = some m) :
    m.Everywhere P := fun r k hk =>
  h (p ++ r) k (by rw [find_append, hm, Option.bind_some, hk])

mutual

/-- `P` is checked at the node and at every node below it. -/
def all (P : Node → Bool) : Node → Bool
  | mk kind named field start stop children =>
    P (mk kind named field start stop children) && allOf P children

def allOf (P : Node → Bool) : List Node → Bool
  | [] => true
  | c :: rest => all P c && allOf P rest

end

mutual

/-- The nodes on a longest way down. -/
def height : Node → ℕ
  | mk _ _ _ _ _ children => heightOf children + 1

def heightOf : List Node → ℕ
  | [] => 0
  | c :: rest => max (height c) (heightOf rest)

end

theorem height_le_heightOf {cs : List Node} (h : c ∈ cs) : c.height ≤ heightOf cs := by
  induction cs with
  | nil => exact absurd h List.not_mem_nil
  | cons d cs ih =>
      rw [heightOf]
      rcases List.mem_cons.mp h with rfl | h
      · exact le_max_left _ _
      · exact (ih h).trans (le_max_right _ _)

theorem length_lt_height {m : Node} {r : Path} (h : n.find r = some m) : r.length < n.height := by
  induction r generalizing n with
  | nil =>
      cases n
      exact Nat.succ_pos _
  | cons i r ih =>
      obtain ⟨c, hc, hm⟩ := find_cons_eq_some h
      have hchild := height_le_heightOf (List.mem_of_getElem? hc)
      have hlt := ih hm
      cases n with
      | mk kind named field start stop children =>
          show r.length + 1 < heightOf children + 1
          exact Nat.succ_lt_succ (hlt.trans_le hchild)

theorem all_eq (P : Node → Bool) (n : Node) : n.all P = (P n && allOf P n.children) := by
  cases n
  rw [all, children]

theorem allOf_iff (P : Node → Bool) (cs : List Node) :
    allOf P cs = true ↔ ∀ c ∈ cs, c.all P = true := by
  induction cs with
  | nil => simp [allOf]
  | cons c cs ih => simp [allOf, ih]

theorem everywhere_of_all {P : Node → Bool} (h : n.all P = true) :
    n.Everywhere fun m => P m = true := by
  intro p m hm
  induction p generalizing n with
  | nil =>
      obtain rfl : n = m := Option.some.inj hm
      rw [all_eq, Bool.and_eq_true] at h
      exact h.1
  | cons i p ih =>
      obtain ⟨c, hc, hm⟩ := find_cons_eq_some hm
      rw [all_eq, Bool.and_eq_true, allOf_iff] at h
      exact ih (h.2 c (List.mem_of_getElem? hc)) hm

end Node

/-! ## Writing trees down -/

/-- A named node. -/
def inner (kind : String) (start stop : ℕ) (children : List Node) : Node :=
  .mk (Text.str kind) true none start stop children

/-- A named node in a field. -/
def innerAs (field kind : String) (start stop : ℕ) (children : List Node) : Node :=
  .mk (Text.str kind) true (some (Text.str field)) start stop children

/-- A token. -/
def token (text : String) (start : ℕ) : Node :=
  .mk (Text.str text) false none start (start + text.length) []

end SyntaxTree
