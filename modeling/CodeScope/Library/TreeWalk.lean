import Mathlib.Data.List.Basic

/-! # Walks over directory trees

A walk goes through the entries of a tree in the order in which they are listed, passes over the
branches that it does not enter and the leaves that it does not take, and may change its mind once:
a leaf that it takes can set a flag that later decisions depend on. When the flag only lets more
pass, what the walk takes lies between what it would take with the flag unset and set throughout,
and the order of the entries decides where. -/

namespace TreeWalk

/-- The entries of a directory, in some order. -/
inductive Forest (ν : Type) where
  | nil
  | leaf (name : ν) (rest : Forest ν)
  | branch (name : ν) (children rest : Forest ν)

variable {ν : Type}

/-- The paths of the leaves. -/
def Forest.leaves : Forest ν → List (List ν)
  | .nil => []
  | .leaf name rest => [name] :: rest.leaves
  | .branch name children rest => children.leaves.map (name :: ·) ++ rest.leaves

/-- An entry in front of the others. -/
def Forest.add (name : ν) (children : Option (Forest ν)) (rest : Forest ν) : Forest ν :=
  match children with
  | none => .leaf name rest
  | some below => .branch name below rest

/-- Two orders of the same entries. -/
inductive Reorders : Forest ν → Forest ν → Prop where
  | refl (t : Forest ν) : Reorders t t
  | leaf {name : ν} {t t' : Forest ν} (rest : Reorders t t') :
      Reorders (.leaf name t) (.leaf name t')
  | branch {name : ν} {s s' t t' : Forest ν} (children : Reorders s s') (rest : Reorders t t') :
      Reorders (.branch name s t) (.branch name s' t')
  | swap (a b : ν) (s t : Option (Forest ν)) (rest : Forest ν) :
      Reorders (.add a s (.add b t rest)) (.add b t (.add a s rest))
  | trans {t t' t'' : Forest ν} (first : Reorders t t') (second : Reorders t' t'') : Reorders t t''

/-- The paths of the leaves of one entry. -/
def entryLeaves (name : ν) (children : Option (Forest ν)) : List (List ν) :=
  match children with
  | none => [[name]]
  | some below => below.leaves.map (name :: ·)

theorem leaves_add (name : ν) (children : Option (Forest ν)) (rest : Forest ν) :
    (Forest.add name children rest).leaves = entryLeaves name children ++ rest.leaves := by
  cases children with
  | none => rfl
  | some below => rfl

theorem Reorders.mem_leaves {t t' : Forest ν} (h : Reorders t t') (q : List ν) :
    q ∈ t.leaves ↔ q ∈ t'.leaves := by
  induction h generalizing q with
  | refl t => exact Iff.rfl
  | leaf rest ih => rw [Forest.leaves, Forest.leaves, List.mem_cons, List.mem_cons, ih]
  | branch children rest ihc ihr =>
      simp only [Forest.leaves, List.mem_append, List.mem_map, ihc, ihr]
  | swap a b s t rest =>
      simp only [leaves_add]
      simp only [List.mem_append, or_left_comm]
  | trans first second ih₁ ih₂ => rw [ih₁, ih₂]

theorem ne_nil_of_mem_leaves {t : Forest ν} {q : List ν} (h : q ∈ t.leaves) : q ≠ [] := by
  induction t with
  | nil => exact absurd h List.not_mem_nil
  | leaf name rest ih =>
      rcases List.mem_cons.mp h with rfl | h
      · exact List.cons_ne_nil _ _
      · exact ih h
  | branch name children rest ihc ihr =>
      rcases List.mem_append.mp h with h | h
      · obtain ⟨q', _, rfl⟩ := List.mem_map.mp h
        exact List.cons_ne_nil _ _
      · exact ihr h

/-! ## Walks -/

section Walk

variable (enter take : Bool → List ν → Bool) (flip : List ν → Bool)

/-- The walk below `above` with the flag `c`: the flag at the end, and the paths it has taken. -/
def walk : Bool → List ν → Forest ν → Bool × List (List ν)
  | c, _, .nil => (c, [])
  | c, above, .leaf name rest =>
      let p := above ++ [name]
      if take c p then
        let (c', taken) := walk (c || flip p) above rest
        (c', [name] :: taken)
      else walk c above rest
  | c, above, .branch name children rest =>
      let p := above ++ [name]
      if enter c p then
        let (c', below) := walk c p children
        let (c'', taken) := walk c' above rest
        (c'', below.map (name :: ·) ++ taken)
      else walk c above rest

/-- With the flag `c` throughout, the path is taken. -/
def kept (c : Bool) : List ν → List ν → Bool
  | _, [] => false
  | above, [name] => take c (above ++ [name])
  | above, name :: next :: q => enter c (above ++ [name]) && kept c (above ++ [name]) (next :: q)

variable {enter take flip} {c : Bool} {above : List ν} {name : ν}

variable {q : List ν} {rest t : Forest ν}

theorem kept_cons (hq : q ≠ []) : kept enter take c above (name :: q) =
    (enter c (above ++ [name]) && kept enter take c (above ++ [name]) q) := by
  cases q with
  | nil => exact absurd rfl hq
  | cons next q => rfl

theorem kept_and (enter' take' : Bool → List ν → Bool) (q : List ν) :
    kept (fun c p => enter c p && enter' c p) (fun c p => take c p && take' c p) c above q =
      (kept enter take c above q && kept enter' take' c above q) := by
  induction q generalizing above with
  | nil => rfl
  | cons name q ih =>
      cases q with
      | nil => rfl
      | cons next q =>
          rw [kept, kept, kept, ih]
          cases enter c (above ++ [name]) with
          | false => rfl
          | true => rw [Bool.true_and, Bool.true_and, Bool.and_left_comm]

theorem kept_congr {enter' take' : Bool → List ν → Bool}
    (henter : ∀ p, p ≠ [] → p <+: above ++ q → enter c p = enter' c p)
    (htake : q ≠ [] → take c (above ++ q) = take' c (above ++ q)) :
    kept enter take c above q = kept enter' take' c above q := by
  induction q generalizing above with
  | nil => rfl
  | cons name q ih =>
      cases q with
      | nil => exact htake (List.cons_ne_nil _ _)
      | cons next q =>
          rw [List.append_cons] at henter htake
          have hhere := henter (above ++ [name]) (by simp) (List.prefix_append _ _)
          have hbelow := ih henter fun _ => htake (List.cons_ne_nil _ _)
          rw [kept, kept, hhere, hbelow]

theorem kept_unguarded (hq : q ≠ []) :
    kept (fun _ _ => true) take c above q = take c (above ++ q) := by
  induction q generalizing above with
  | nil => exact absurd rfl hq
  | cons name q ih =>
      cases q with
      | nil => rfl
      | cons next q => rw [kept, Bool.true_and, ih (List.cons_ne_nil _ _), ← List.append_cons]

theorem kept_flag (enter take : List ν → Bool) (c c' : Bool) (q : List ν) :
    kept (fun _ => enter) (fun _ => take) c above q =
      kept (fun _ => enter) (fun _ => take) c' above q := by
  induction q generalizing above with
  | nil => rfl
  | cons name q ih =>
      cases q with
      | nil => rfl
      | cons next q => rw [kept, kept, ih]

theorem walk_leaf_taken (h : take c (above ++ [name]) = true) :
    walk enter take flip c above (.leaf name rest) =
      let r := walk enter take flip (c || flip (above ++ [name])) above rest
      (r.1, [name] :: r.2) := if_pos h

theorem walk_leaf_passed (h : take c (above ++ [name]) = false) :
    walk enter take flip c above (.leaf name rest) = walk enter take flip c above rest :=
  if_neg (by simp [h])

theorem walk_branch_entered {children : Forest ν} (h : enter c (above ++ [name]) = true) :
    walk enter take flip c above (.branch name children rest) =
      let r := walk enter take flip c (above ++ [name]) children
      let r' := walk enter take flip r.1 above rest
      (r'.1, r.2.map (name :: ·) ++ r'.2) := if_pos h

theorem walk_branch_passed {children : Forest ν} (h : enter c (above ++ [name]) = false) :
    walk enter take flip c above (.branch name children rest) = walk enter take flip c above rest :=
  if_neg (by simp [h])

/-- **A walk whose flag does not change takes what is kept.** -/
theorem walk_quiet
    (hquiet : ∀ q ∈ t.leaves, kept enter take c above q = true → (c || flip (above ++ q)) = c) :
    (walk enter take flip c above t).1 = c ∧ ∀ q, q ∈ (walk enter take flip c above t).2 ↔
      q ∈ t.leaves ∧ kept enter take c above q = true := by
  induction t generalizing above with
  | nil => exact ⟨rfl, fun q => iff_of_false List.not_mem_nil fun h => List.not_mem_nil h.1⟩
  | leaf name rest ih =>
      have hrest := ih fun q hq => hquiet q (List.mem_cons_of_mem _ hq)
      cases htake : take c (above ++ [name]) with
      | true =>
          have hflag : (c || flip (above ++ [name])) = c := hquiet [name] List.mem_cons_self htake
          rw [walk_leaf_taken htake, hflag]
          refine ⟨hrest.1, fun q => ?_⟩
          dsimp only
          rw [List.mem_cons, hrest.2, Forest.leaves, List.mem_cons, or_and_right]
          refine or_congr_left (iff_self_and.mpr ?_)
          rintro rfl
          exact htake
      | false =>
          rw [walk_leaf_passed htake]
          refine ⟨hrest.1, fun q => ?_⟩
          rw [hrest.2, Forest.leaves, List.mem_cons, or_and_right]
          refine (or_iff_right ?_).symm
          rintro ⟨rfl, hkept⟩
          exact absurd (htake.symm.trans hkept) Bool.false_ne_true
  | branch name children rest ihc ihr =>
      have hrest := ihr fun q hq => hquiet q (List.mem_append_right _ hq)
      have hmem : ∀ q, q ∈ (Forest.branch name children rest).leaves ↔
          (∃ q' ∈ children.leaves, name :: q' = q) ∨ q ∈ rest.leaves := by
        intro q
        rw [Forest.leaves, List.mem_append, List.mem_map]
      cases henter : enter c (above ++ [name]) with
      | true =>
          have hbelow : (walk enter take flip c (above ++ [name]) children).1 = c ∧ _ :=
            ihc fun q hq hkept => by
              have hfull := hquiet (name :: q) ((hmem _).mpr (Or.inl ⟨q, hq, rfl⟩))
              rw [kept_cons (ne_nil_of_mem_leaves hq), henter, Bool.true_and, hkept,
                List.append_cons] at hfull
              exact hfull rfl
          rw [walk_branch_entered henter]
          dsimp only
          rw [hbelow.1]
          refine ⟨hrest.1, fun q => ?_⟩
          rw [List.mem_append, hrest.2, hmem, or_and_right, List.mem_map]
          refine or_congr_left ⟨?_, ?_⟩
          · rintro ⟨q', hq', rfl⟩
            obtain ⟨hleaf, hkept⟩ := (hbelow.2 q').mp hq'
            refine ⟨⟨q', hleaf, rfl⟩, ?_⟩
            rw [kept_cons (ne_nil_of_mem_leaves hleaf), henter, hkept]
            rfl
          · rintro ⟨⟨q', hleaf, rfl⟩, hkept⟩
            rw [kept_cons (ne_nil_of_mem_leaves hleaf), henter, Bool.true_and] at hkept
            exact ⟨q', (hbelow.2 q').mpr ⟨hleaf, hkept⟩, rfl⟩
      | false =>
          rw [walk_branch_passed henter]
          refine ⟨hrest.1, fun q => ?_⟩
          rw [hrest.2, hmem, or_and_right]
          refine (or_iff_right ?_).symm
          rintro ⟨⟨q', hleaf, rfl⟩, hkept⟩
          rw [kept_cons (ne_nil_of_mem_leaves hleaf), henter, Bool.false_and] at hkept
          exact absurd hkept Bool.false_ne_true

/-! ## A flag that lets more pass -/

/-- What passes with the flag unset passes with it set. -/
structure Widening (enter take : Bool → List ν → Bool) : Prop where
  enter : ∀ p, enter false p = true → enter true p = true
  take : ∀ p, take false p = true → take true p = true

theorem Widening.from_false {check : Bool → List ν → Bool} {p : List ν}
    (h : ∀ p, check false p = true → check true p = true) (hcheck : check false p = true)
    (c : Bool) : check c p = true := by
  cases c with
  | false => exact hcheck
  | true => exact h p hcheck

theorem Widening.to_true {check : Bool → List ν → Bool} {p : List ν}
    (h : ∀ p, check false p = true → check true p = true) (hcheck : check c p = true) :
    check true p = true := by
  cases c with
  | false => exact h p hcheck
  | true => exact hcheck

/-- The walk takes nothing that the set flag would not let pass. -/
theorem walk_upper (h : Widening enter take) (hq : q ∈ (walk enter take flip c above t).2) :
    q ∈ t.leaves ∧ kept enter take true above q = true := by
  induction t generalizing c above q with
  | nil => exact absurd hq List.not_mem_nil
  | leaf name rest ih =>
      cases htake : take c (above ++ [name]) with
      | true =>
          rw [walk_leaf_taken htake] at hq
          rcases List.mem_cons.mp hq with rfl | hq
          · exact ⟨List.mem_cons_self, Widening.to_true h.take htake⟩
          · exact (ih hq).imp_left (List.mem_cons_of_mem _)
      | false =>
          rw [walk_leaf_passed htake] at hq
          exact (ih hq).imp_left (List.mem_cons_of_mem _)
  | branch name children rest ihc ihr =>
      cases henter : enter c (above ++ [name]) with
      | true =>
          rw [walk_branch_entered henter] at hq
          rcases List.mem_append.mp hq with hq | hq
          · obtain ⟨q', hq', rfl⟩ := List.mem_map.mp hq
            obtain ⟨hleaf, hkept⟩ := ihc hq'
            refine ⟨List.mem_append_left _ (List.mem_map_of_mem hleaf), ?_⟩
            rw [kept_cons (ne_nil_of_mem_leaves hleaf), hkept,
              Widening.to_true h.enter henter]
            rfl
          · exact (ihr hq).imp_left (List.mem_append_right _)
      | false =>
          rw [walk_branch_passed henter] at hq
          exact (ihr hq).imp_left (List.mem_append_right _)

/-- The walk takes everything that the unset flag lets pass. -/
theorem walk_lower (h : Widening enter take) (hleaf : q ∈ t.leaves)
    (hkept : kept enter take false above q = true) : q ∈ (walk enter take flip c above t).2 := by
  induction t generalizing c above q with
  | nil => exact absurd hleaf List.not_mem_nil
  | leaf name rest ih =>
      rcases List.mem_cons.mp hleaf with rfl | hleaf
      · rw [walk_leaf_taken (Widening.from_false h.take hkept c)]
        exact List.mem_cons_self
      · cases htake : take c (above ++ [name]) with
        | true =>
            rw [walk_leaf_taken htake]
            exact List.mem_cons_of_mem _ (ih hleaf hkept)
        | false =>
            rw [walk_leaf_passed htake]
            exact ih hleaf hkept
  | branch name children rest ihc ihr =>
      rcases List.mem_append.mp hleaf with hleaf | hleaf
      · obtain ⟨q', hq', rfl⟩ := List.mem_map.mp hleaf
        rw [kept_cons (ne_nil_of_mem_leaves hq'), Bool.and_eq_true] at hkept
        rw [walk_branch_entered (Widening.from_false h.enter hkept.1 c)]
        exact List.mem_append_left _ (List.mem_map_of_mem (ihc hq' hkept.2))
      · cases henter : enter c (above ++ [name]) with
        | true =>
            rw [walk_branch_entered henter]
            exact List.mem_append_right _ (ihr hleaf hkept)
        | false =>
            rw [walk_branch_passed henter]
            exact ihr hleaf hkept

/-! ## All orders -/

/-- The entry of a leaf can stand in front. -/
theorem exists_in_front (hq : q ∈ t.leaves) :
    ∃ name children rest, Reorders t (.add name children rest) ∧ q ∈ entryLeaves name children := by
  have hbehind : ∀ (name : ν) (children : Option (Forest ν)) {rest : Forest ν},
      (∃ n c r, Reorders rest (.add n c r) ∧ q ∈ entryLeaves n c) →
        ∃ n c r, Reorders (.add name children rest) (.add n c r) ∧ q ∈ entryLeaves n c := by
    rintro name children rest ⟨n, c, r, hreorders, hmem⟩
    refine ⟨n, c, .add name children r, Reorders.trans ?_ (Reorders.swap name n children c r), hmem⟩
    cases children with
    | none => exact Reorders.leaf hreorders
    | some below => exact Reorders.branch (Reorders.refl below) hreorders
  induction t with
  | nil => exact absurd hq List.not_mem_nil
  | leaf name rest ih =>
      rcases List.mem_cons.mp hq with rfl | hq
      · exact ⟨name, none, rest, Reorders.refl _, List.mem_singleton_self _⟩
      · exact hbehind name none (ih hq)
  | branch name children rest _ ih =>
      rcases List.mem_append.mp hq with hq | hq
      · exact ⟨name, some children, rest, Reorders.refl _, hq⟩
      · exact hbehind name (some children) (ih hq)

theorem walk_set (t : Forest ν) : (walk enter take flip true above t).1 = true ∧
    ∀ q, q ∈ (walk enter take flip true above t).2 ↔
      q ∈ t.leaves ∧ kept enter take true above q = true :=
  walk_quiet fun _ _ _ => Bool.true_or _

/-- In some order a leaf that sets the flag comes before everything that depends on it. -/
theorem exists_early_flip {f : List ν} (hf : f ∈ t.leaves)
    (hkept : kept enter take false above f = true) (hflip : flip (above ++ f) = true) :
    ∃ t', Reorders t t' ∧ (walk enter take flip false above t').1 = true ∧
      ∀ q ∈ t.leaves, kept enter take true above q = true →
        q ∈ (walk enter take flip false above t').2 := by
  induction f generalizing t above with
  | nil => exact absurd hkept Bool.false_ne_true
  | cons name f ih =>
      obtain ⟨n, children, rest, hreorders, hmem⟩ := exists_in_front hf
      cases children with
      | none =>
          obtain ⟨rfl, rfl⟩ := List.cons.inj (List.mem_singleton.mp hmem)
          refine ⟨_, hreorders, ?_⟩
          rw [Forest.add, walk_leaf_taken hkept, hflip]
          refine ⟨(walk_set rest).1, fun q hq hq_kept => ?_⟩
          rcases List.mem_cons.mp ((hreorders.mem_leaves q).mp hq) with rfl | hq
          · exact List.mem_cons_self
          · exact List.mem_cons_of_mem _ (((walk_set rest).2 q).mpr ⟨hq, hq_kept⟩)
      | some below =>
          obtain ⟨f', hf', heq⟩ := List.mem_map.mp hmem
          obtain ⟨rfl, rfl⟩ := List.cons.inj heq
          rw [kept_cons (ne_nil_of_mem_leaves hf'), Bool.and_eq_true] at hkept
          rw [List.append_cons] at hflip
          obtain ⟨below', hbelow, hset, htaken⟩ := ih hf' hkept.2 hflip
          refine ⟨.branch n below' rest,
            hreorders.trans (Reorders.branch hbelow (Reorders.refl rest)), ?_⟩
          rw [walk_branch_entered hkept.1]
          dsimp only
          rw [hset]
          refine ⟨(walk_set rest).1, fun q hq hq_kept => ?_⟩
          rcases List.mem_append.mp ((hreorders.mem_leaves q).mp hq) with hq | hq
          · obtain ⟨q', hq', rfl⟩ := List.mem_map.mp hq
            rw [kept_cons (ne_nil_of_mem_leaves hq'), Bool.and_eq_true] at hq_kept
            exact List.mem_append_left _ (List.mem_map_of_mem (htaken q' hq' hq_kept.2))
          · exact List.mem_append_right _ (((walk_set rest).2 q).mpr ⟨hq, hq_kept⟩)

/-- **A walk takes the same leaves in every order exactly when they are what is kept with the flag
    as it starts, and either no leaf sets the flag or nothing depends on it.** -/
theorem walk_orders_iff (h : Widening enter take) (t : Forest ν) {wanted : List ν → Prop}
    (hwanted : ∀ q ∈ t.leaves, wanted q → kept enter take true above q = true →
      kept enter take false above q = true) :
    (∀ t', Reorders t t' → ∀ q, q ∈ (walk enter take flip false above t').2 ↔
        q ∈ t.leaves ∧ wanted q) ↔
      (∀ q ∈ t.leaves, wanted q ↔ kept enter take false above q = true) ∧
        ∀ f ∈ t.leaves, kept enter take false above f = true → flip (above ++ f) = true →
          ∀ q ∈ t.leaves, kept enter take true above q = true →
            kept enter take false above q = true := by
  have hall (hfree : ∀ f ∈ t.leaves, kept enter take false above f = true →
      flip (above ++ f) = true → ∀ q ∈ t.leaves, kept enter take true above q = true →
        kept enter take false above q = true) (t' : Forest ν) (hreorders : Reorders t t')
      (q : List ν) : q ∈ (walk enter take flip false above t').2 ↔
        q ∈ t.leaves ∧ kept enter take false above q = true := by
    by_cases hsome : ∃ f ∈ t.leaves, kept enter take false above f = true ∧ flip (above ++ f) = true
    · obtain ⟨f, hf, hkept, hflip⟩ := hsome
      constructor
      · intro hq
        obtain ⟨hleaf, hupper⟩ := walk_upper h hq
        have hmem := (hreorders.mem_leaves q).mpr hleaf
        exact ⟨hmem, hfree f hf hkept hflip q hmem hupper⟩
      · rintro ⟨hleaf, hlower⟩
        exact walk_lower h ((hreorders.mem_leaves q).mp hleaf) hlower
    · have hquiet := (walk_quiet (t := t') (c := false) fun f hf hkept => by
        by_contra hflip
        rw [Bool.false_or, Bool.not_eq_false] at hflip
        exact hsome ⟨f, (hreorders.mem_leaves f).mpr hf, hkept, hflip⟩).2 q
      rw [hquiet, hreorders.mem_leaves]
  constructor
  · intro hsame
    have hfree : ∀ f ∈ t.leaves, kept enter take false above f = true →
        flip (above ++ f) = true → ∀ q ∈ t.leaves, kept enter take true above q = true →
          kept enter take false above q = true := by
      intro f hf hkept hflip q hq hq_kept
      obtain ⟨t', hreorders, _, htaken⟩ := exists_early_flip hf hkept hflip
      exact hwanted q hq (((hsame t' hreorders q).mp (htaken q hq hq_kept)).2) hq_kept
    refine ⟨fun q hq => ?_, hfree⟩
    have htaken := hall hfree t (Reorders.refl t) q
    rw [hsame t (Reorders.refl t), and_iff_right hq, and_iff_right hq] at htaken
    exact htaken
  · rintro ⟨hsame, hfree⟩ t' hreorders q
    rw [hall hfree t' hreorders]
    exact and_congr_right fun hq => (hsame q hq).symm

end Walk

end TreeWalk
