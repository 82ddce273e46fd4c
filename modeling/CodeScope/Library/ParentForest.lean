import Mathlib

/-! # Rows with a parent as a forest

Rows name their parent by its key. When every parent is a row with a smaller key, the rows form a
forest: starting from the rows without a parent and going down to the children reaches every row
once. -/

namespace ParentForest

variable {α : Type}

inductive RoseTree (α : Type) where
  | node (value : α) (children : List (RoseTree α))

namespace RoseTree

def value : RoseTree α → α
  | .node v _ => v

def children : RoseTree α → List (RoseTree α)
  | .node _ cs => cs

mutual

/-- The values of a tree, a node in front of what is below it. -/
def values : RoseTree α → List α
  | .node v cs => v :: valuesOf cs

def valuesOf : List (RoseTree α) → List α
  | [] => []
  | t :: ts => values t ++ valuesOf ts

end

theorem valuesOf_eq (ts : List (RoseTree α)) : valuesOf ts = ts.flatMap values := by
  induction ts with
  | nil => rfl
  | cons t ts ih =>
      show values t ++ valuesOf ts = _
      rw [ih, List.flatMap_cons]

theorem values_node (v : α) (cs : List (RoseTree α)) :
    values (.node v cs) = v :: cs.flatMap values := by
  rw [values, valuesOf_eq]

end RoseTree

variable (key : α → ℕ) (parent : α → Option ℕ) (rows : List α)

/-- Every node is the parent of the nodes right below it. -/
inductive Nested : RoseTree α → Prop where
  | node (v : α) (cs : List (RoseTree α)) : (∀ c ∈ cs, parent c.value = some (key v)) →
      (∀ c ∈ cs, Nested c) → Nested (.node v cs)

/-- Keys are distinct, and every parent is a row with a smaller key. -/
structure Linked : Prop where
  keys_nodup : (rows.map key).Nodup
  parent_before : ∀ r ∈ rows, ∀ p, parent r = some p → p < key r ∧ ∃ q ∈ rows, key q = p

def childrenOf (r : α) : List α := rows.filter fun c => parent c = some (key r)

/-- The tree below a row, down to a depth. -/
def subtree : ℕ → α → RoseTree α
  | 0, r => .node r []
  | n + 1, r => .node r ((childrenOf key parent rows r).map (subtree n))

/-- The trees of the rows without a parent. -/
def forest : List (RoseTree α) :=
  (rows.filter fun r => parent r = none).map (subtree key parent rows rows.length)

/-- The second row has the first as its parent. -/
structure Child (a b : α) : Prop where
  parent_mem : a ∈ rows
  mem : b ∈ rows
  parent_eq : parent b = some (key a)

/-- The rows behind a row, which bound the depth below it. -/
def behind (r : α) : ℕ := rows.countP fun s => key r < key s

variable {key parent rows}

theorem mem_childrenOf {r : α} (hr : r ∈ rows) (c : α) :
    c ∈ childrenOf key parent rows r ↔ Child key parent rows r c := by
  rw [childrenOf, List.mem_filter, decide_eq_true_eq]
  exact ⟨fun h => ⟨hr, h.1, h.2⟩, fun h => ⟨h.mem, h.parent_eq⟩⟩

theorem value_subtree (n : ℕ) (r : α) : (subtree key parent rows n r).value = r := by
  cases n <;> rfl

theorem values_subtree_succ (n : ℕ) (r : α) :
    (subtree key parent rows (n + 1) r).values =
      r :: (childrenOf key parent rows r).flatMap fun c => (subtree key parent rows n c).values := by
  rw [subtree, RoseTree.values_node, List.flatMap_map]

theorem nested_subtree (n : ℕ) (r : α) : Nested key parent (subtree key parent rows n r) := by
  induction n generalizing r with
  | zero => exact .node r [] (by simp) (by simp)
  | succ n ih =>
      refine .node r _ (fun t ht => ?_) fun t ht => ?_
      · obtain ⟨c, hc, rfl⟩ := List.mem_map.mp ht
        rw [value_subtree]
        exact of_decide_eq_true (List.mem_filter.mp hc).2
      · obtain ⟨c, _, rfl⟩ := List.mem_map.mp ht
        exact ih c

/-! ## Down the children -/

section

variable (h : Linked key parent rows)

include h

theorem Linked.key_lt {a b : α} (hchild : Child key parent rows a b) : key a < key b :=
  (h.parent_before b hchild.mem _ hchild.parent_eq).1

theorem Linked.key_le {a b : α} (hreach : Relation.ReflTransGen (Child key parent rows) a b) :
    key a ≤ key b := by
  induction hreach with
  | refl => exact Nat.le_refl _
  | tail _ hchild ih => exact ih.trans (h.key_lt hchild).le

theorem Linked.eq_of_key {a b : α} (ha : a ∈ rows) (hb : b ∈ rows) (heq : key a = key b) : a = b :=
  List.inj_on_of_nodup_map h.keys_nodup ha hb heq

theorem Linked.behind_lt {a b : α} (hchild : Child key parent rows a b) :
    behind key rows b < behind key rows a := by
  have hlt := h.key_lt hchild
  have hsub : ∀ l : List α, l.countP (fun s => key b < key s) ≤ l.countP fun s => key a < key s :=
    fun l => List.countP_mono_left fun s _ hs => by
      rw [decide_eq_true_eq] at hs ⊢
      exact hlt.trans hs
  obtain ⟨front, back, hsplit⟩ := List.append_of_mem hchild.mem
  have hfront := hsub front
  have hback := hsub back
  have hself : (b :: back).countP (fun s => key b < key s) = back.countP fun s => key b < key s :=
    List.countP_cons_of_neg (by simp)
  have hnew : (b :: back).countP (fun s => key a < key s) =
      back.countP (fun s => key a < key s) + 1 := List.countP_cons_of_pos (by simpa using hlt)
  rw [behind, behind, hsplit, List.countP_append, List.countP_append, hself, hnew]
  omega

/-- A tree that is deep enough holds what its root reaches. -/
theorem Linked.mem_values {n : ℕ} {r x : α} (hr : r ∈ rows) (hn : behind key rows r ≤ n) :
    x ∈ (subtree key parent rows n r).values ↔
      Relation.ReflTransGen (Child key parent rows) r x := by
  induction n generalizing r with
  | zero =>
      have hvalues : (subtree key parent rows 0 r).values = [r] := rfl
      rw [hvalues, List.mem_singleton, Relation.ReflTransGen.cases_head_iff]
      constructor
      · intro heq
        exact Or.inl heq.symm
      · rintro (heq | ⟨c, hc, _⟩)
        · exact heq.symm
        · have hlt := h.behind_lt hc
          omega
  | succ n ih =>
      rw [values_subtree_succ, List.mem_cons, List.mem_flatMap,
        Relation.ReflTransGen.cases_head_iff, eq_comm]
      refine or_congr_right (exists_congr fun c => ?_)
      rw [mem_childrenOf hr]
      refine and_congr_right fun hc => ih hc.mem ?_
      have hlt := h.behind_lt hc
      omega

theorem Linked.eq_of_reaches {a b : α} (ha : a ∈ rows) (hparent : parent a = parent b)
    (hreach : Relation.ReflTransGen (Child key parent rows) a b) : a = b := by
  rcases Relation.ReflTransGen.cases_tail hreach with heq | ⟨e, hae, heb⟩
  · exact heq.symm
  · have hlt := (h.parent_before a ha _ (hparent.trans heb.parent_eq)).1
    have hle := h.key_le hae
    omega

theorem Linked.eq_of_common {a b x : α} (ha : a ∈ rows) (hb : b ∈ rows)
    (hparent : parent a = parent b) (hax : Relation.ReflTransGen (Child key parent rows) a x)
    (hbx : Relation.ReflTransGen (Child key parent rows) b x) : a = b := by
  have hunique : Relator.RightUnique (Function.swap (Child key parent rows)) := by
    intro s r r' hr hr'
    refine h.eq_of_key hr.parent_mem hr'.parent_mem (Option.some.inj ?_)
    rw [← hr.parent_eq, hr'.parent_eq]
  rcases Relation.ReflTransGen.total_of_right_unique hunique
    (Relation.reflTransGen_swap.mpr hax) (Relation.reflTransGen_swap.mpr hbx) with hab | hba
  · exact (h.eq_of_reaches hb hparent.symm (Relation.reflTransGen_swap.mp hab)).symm
  · exact h.eq_of_reaches ha hparent (Relation.reflTransGen_swap.mp hba)

theorem Linked.exists_root {x : α} (hx : x ∈ rows) :
    ∃ r ∈ rows, parent r = none ∧ Relation.ReflTransGen (Child key parent rows) r x := by
  generalize hn : key x = n
  induction n using Nat.strong_induction_on generalizing x with
  | _ n ih =>
      cases hp : parent x with
      | none => exact ⟨x, hx, hp, Relation.ReflTransGen.refl⟩
      | some p =>
          obtain ⟨hlt, q, hq, rfl⟩ := h.parent_before x hx p hp
          obtain ⟨r, hr, hroot, hreach⟩ := ih (key q) (hn ▸ hlt) hq rfl
          exact ⟨r, hr, hroot, hreach.tail ⟨hq, hx, hp⟩⟩

theorem Linked.rows_nodup : rows.Nodup := List.Nodup.of_map key h.keys_nodup

theorem Linked.nodup_flatMap {n : ℕ} {l : List α} (hl : l.Nodup) (hmem : ∀ r ∈ l, r ∈ rows)
    (hparent : ∀ r ∈ l, ∀ s ∈ l, parent r = parent s) (hn : ∀ r ∈ l, behind key rows r ≤ n)
    (heach : ∀ r ∈ l, (subtree key parent rows n r).values.Nodup) :
    (l.flatMap fun r => (subtree key parent rows n r).values).Nodup := by
  rw [List.nodup_flatMap]
  refine ⟨heach, List.Pairwise.imp_of_mem ?_ hl⟩
  intro r s hr hs hne x hxr hxs
  have hr' := (h.mem_values (hmem r hr) (hn r hr)).mp hxr
  have hs' := (h.mem_values (hmem s hs) (hn s hs)).mp hxs
  exact hne (h.eq_of_common (hmem r hr) (hmem s hs) (hparent r hr s hs) hr' hs')

theorem Linked.nodup_values {n : ℕ} {r : α} (hr : r ∈ rows) (hn : behind key rows r ≤ n) :
    (subtree key parent rows n r).values.Nodup := by
  induction n generalizing r with
  | zero => exact List.nodup_singleton r
  | succ n ih =>
      have hchild : ∀ c ∈ childrenOf key parent rows r, Child key parent rows r c :=
        fun c => (mem_childrenOf hr c).mp
      have hbehind : ∀ c ∈ childrenOf key parent rows r, behind key rows c ≤ n := by
        intro c hc
        have hlt := h.behind_lt (hchild c hc)
        omega
      rw [values_subtree_succ, List.nodup_cons]
      refine ⟨fun hmem => ?_, h.nodup_flatMap (h.rows_nodup.filter _)
        (fun c hc => (hchild c hc).mem)
        (fun c hc d hd => (hchild c hc).parent_eq.trans (hchild d hd).parent_eq.symm) hbehind
        fun c hc => ih (hchild c hc).mem (hbehind c hc)⟩
      obtain ⟨c, hc, hin⟩ := List.mem_flatMap.mp hmem
      have hle := h.key_le ((h.mem_values (hchild c hc).mem (hbehind c hc)).mp hin)
      have hlt := h.key_lt (hchild c hc)
      omega

/-- **The forest has every row once**, and every node is the parent of the nodes right below it. -/
theorem Linked.forest_exact :
    ((forest key parent rows).flatMap RoseTree.values).Perm rows ∧
      ∀ t ∈ forest key parent rows, parent t.value = none ∧ Nested key parent t := by
  have hdeep : ∀ r : α, behind key rows r ≤ rows.length := fun r => List.countP_le_length
  refine ⟨?_, fun t ht => ?_⟩
  · rw [forest, List.flatMap_map]
    have hroots : ∀ r ∈ rows.filter (fun r => parent r = none), r ∈ rows ∧ parent r = none := by
      intro r hr
      rw [List.mem_filter, decide_eq_true_eq] at hr
      exact hr
    refine (List.perm_ext_iff_of_nodup (h.nodup_flatMap (h.rows_nodup.filter _)
      (fun r hr => (hroots r hr).1)
      (fun r hr s hs => (hroots r hr).2.trans (hroots s hs).2.symm) (fun r _ => hdeep r)
      fun r hr => h.nodup_values (hroots r hr).1 (hdeep r)) h.rows_nodup).mpr fun x => ?_
    rw [List.mem_flatMap]
    constructor
    · intro ⟨r, hr, hx⟩
      have hreach := (h.mem_values (hroots r hr).1 (hdeep r)).mp hx
      rcases Relation.ReflTransGen.cases_tail hreach with rfl | ⟨_, _, hchild⟩
      · exact (hroots x hr).1
      · exact hchild.mem
    · intro hx
      obtain ⟨r, hr, hroot, hreach⟩ := h.exists_root hx
      exact ⟨r, List.mem_filter.mpr ⟨hr, decide_eq_true hroot⟩,
        (h.mem_values hr (hdeep r)).mpr hreach⟩
  · obtain ⟨r, hr, rfl⟩ := List.mem_map.mp ht
    rw [value_subtree]
    exact ⟨of_decide_eq_true (List.mem_filter.mp hr).2, nested_subtree _ r⟩

end

end ParentForest
