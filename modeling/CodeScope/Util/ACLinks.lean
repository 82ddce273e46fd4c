import CodeScope.Util.ACTrie

/-! # The links of the pattern automaton

`build` links a node to the longest proper suffix of its word that is a node (`fail`) and to the
longest one that is a pattern (`out_link`). The first is found from the links of the parent's
suffixes and the second from those of the first, so both rest on the breadth-first order: when a node
is taken from the queue, every node as deep as it is linked (`Frontier.linked_upto`). -/

namespace CodeScope.Util

namespace ACAutomaton

open Suffixes

variable {ac ac' ac'' : ACAutomaton} {word : ℕ → List UInt8} {P : List (List UInt8)}
variable {cur child n f : ℕ} {i : UInt8}

/-- The automatons differ in their links at most. -/
structure SamePaths (ac ac' : ACAutomaton) : Prop where
  size_eq : ac'.size = ac.size
  next_eq : ∀ n, (ac'.node n).next = (ac.node n).next
  output_eq : ∀ n, (ac'.node n).output = (ac.node n).output
  output_len_eq : ∀ n, (ac'.node n).output_len = (ac.node n).output_len

theorem SamePaths.refl (ac : ACAutomaton) : SamePaths ac ac :=
  ⟨rfl, fun _ => rfl, fun _ => rfl, fun _ => rfl⟩

theorem SamePaths.trans (h : SamePaths ac ac') (h' : SamePaths ac' ac'') : SamePaths ac ac'' :=
  ⟨h'.size_eq.trans h.size_eq, fun n => (h'.next_eq n).trans (h.next_eq n),
    fun n => (h'.output_eq n).trans (h.output_eq n),
    fun n => (h'.output_len_eq n).trans (h.output_len_eq n)⟩

theorem setLinks_node_self (fail out_link : Option ℕ) :
    (ac.setLinks child fail out_link).node child =
      { ac.node child with fail := fail, out_link := out_link } := Function.update_self _ _ _

theorem setLinks_node_of_ne (hne : n ≠ child) (fail out_link : Option ℕ) :
    (ac.setLinks child fail out_link).node n = ac.node n := Function.update_of_ne hne _ _

theorem samePaths_setLinks (fail out_link : Option ℕ) :
    SamePaths ac (ac.setLinks child fail out_link) := by
  refine ⟨rfl, fun n => ?_, fun n => ?_, fun n => ?_⟩ <;>
  · by_cases hn : n = child
    · subst hn
      rw [setLinks_node_self]
    · rw [setLinks_node_of_ne hn]

/-- A trie whose nodes with an output are those of the patterns `P`. -/
structure Named (ac : ACAutomaton) (word : ℕ → List UInt8) (P : List (List UInt8)) : Prop
    extends IsTrie ac word where
  output_iff : ∀ n < ac.size, ((ac.node n).output ≠ 0 ↔ word n ∈ P)
  nil_not_mem : [] ∉ P
  sub : ∀ p ∈ P, p ∈ ac.words word
  root_fail : (ac.node root).fail = none
  root_out_link : (ac.node root).out_link = none

theorem Named.setLinks (h : Named ac word P) (hne : child ≠ root) (fail out_link : Option ℕ) :
    Named (ac.setLinks child fail out_link) word P := by
  have hsame : SamePaths ac (ac.setLinks child fail out_link) := samePaths_setLinks fail out_link
  refine ⟨h.toIsTrie.of_next rfl hsame.next_eq, fun n hn => ?_, h.nil_not_mem, h.sub, ?_, ?_⟩
  · rw [hsame.output_eq]
    exact h.output_iff n hn
  · rw [setLinks_node_of_ne hne.symm]
    exact h.root_fail
  · rw [setLinks_node_of_ne hne.symm]
    exact h.root_out_link

/-- `o` is the node of the longest pattern that ends a text. -/
def OutAt (ac : ACAutomaton) (word : ℕ → List UInt8) (P : List (List UInt8)) (o : Option ℕ)
    (t : List UInt8) : Prop :=
  firstOf P t = o.map word ∧ ∀ k, o = some k → k < ac.size

theorem OutAt.congr {o : Option ℕ} {t t' : List UInt8} (h : ac.OutAt word P o t)
    (heq : firstOf P t' = firstOf P t) : ac.OutAt word P o t' := ⟨heq.trans h.1, h.2⟩

/-- The links of a node are right. -/
structure Linked (ac : ACAutomaton) (word : ℕ → List UInt8) (P : List (List UInt8)) (n : ℕ) :
    Prop where
  fail : ∃ k < ac.size, (ac.node n).fail = some k ∧ word k = longest (ac.words word) (word n).tail
  out_link : ac.OutAt word P (ac.node n).out_link (word n).tail

theorem Linked.setLinks (h : Linked ac word P n) (hne : n ≠ child) (fail out_link : Option ℕ) :
    Linked (ac.setLinks child fail out_link) word P n := by
  refine ⟨?_, ?_⟩
  · rw [setLinks_node_of_ne hne]
    exact h.fail
  · rw [setLinks_node_of_ne hne]
    exact h.out_link

theorem linked_setLinks_self (hf : f < ac.size)
    (hword : word f = longest (ac.words word) (word child).tail) {out_link : Option ℕ}
    (hout : ac.OutAt word P out_link (word child).tail) :
    Linked (ac.setLinks child (some f) out_link) word P child := by
  refine ⟨⟨f, hf, ?_, hword⟩, ?_⟩
  · rw [setLinks_node_self]
  · rw [setLinks_node_self]
    exact hout

/-! ## One node -/

/-- Every node but the root is linked, down to a depth. -/
def LinkedUpto (ac : ACAutomaton) (word : ℕ → List UInt8) (P : List (List UInt8)) (d : ℕ) : Prop :=
  ∀ n < ac.size, n ≠ root → (word n).length ≤ d → Linked ac word P n

theorem Linked.length_lt (h : Linked ac word P n) (hne : word n ≠ []) {k : ℕ}
    (hfail : (ac.node n).fail = some k) : (word k).length < (word n).length := by
  obtain ⟨k', -, hk', hword⟩ := h.fail
  obtain rfl : k' = k := Option.some.inj (hk'.symm.trans hfail)
  have hle := (longest_suffix (ac.words word) (word n).tail).length_le
  have hpos := List.length_pos_of_ne_nil hne
  rw [hword]
  rw [List.length_tail] at hle
  omega

/-- The loop over `fail` ends at the node to extend for the longest suffix, if there is one. -/
theorem climb_spec (h : Named ac word P) {d : ℕ} (hlinked : LinkedUpto ac word P d) {budget : ℕ}
    (hn : n < ac.size) (hd : (word n).length ≤ d) (hbudget : (word n).length + 2 ≤ budget) :
    (∃ g k, ac.climb i budget (some n) = some (some g) ∧ (ac.node g).next i = some k ∧ k < ac.size ∧
        word k = longest (ac.words word) (word n ++ [i])) ∨
      (ac.climb i budget (some n) = some none ∧ longest (ac.words word) (word n ++ [i]) = []) := by
  induction budget generalizing n with
  | zero => omega
  | succ budget ih =>
      cases hnext : (ac.node n).next i with
      | some k =>
          obtain ⟨hk, hword⟩ := (h.next_iff hn).mp hnext
          refine Or.inl ⟨n, k, by simp [climb, hnext], hnext, hk, ?_⟩
          rw [← hword, longest_of_mem (IsTrie.mem k hk)]
      | none =>
          have hmiss := h.next_none hn hnext
          by_cases hroot : n = root
          · subst hroot
            obtain ⟨budget, rfl⟩ : ∃ b, budget = b + 1 := ⟨budget - 1, by omega⟩
            rw [h.word_root, List.nil_append] at hmiss ⊢
            exact Or.inr ⟨by simp [climb, hnext, h.root_fail], longest_miss_nil hmiss⟩
          · have hne := h.word_ne_nil hn hroot
            have hl := hlinked n hn hroot hd
            obtain ⟨k, hk, hfail, hword⟩ := hl.fail
            have hlt := hl.length_lt hne hfail
            have hclimb : ac.climb i (budget + 1) (some n) = ac.climb i budget (some k) := by
              simp [climb, hnext, hfail]
            rw [hclimb, longest_miss h.prefixClosed hne hmiss, ← hword]
            exact ih hk (by omega) (by omega)

/-- The `out_link` that goes with a `fail`. -/
theorem outLinkOf_spec (h : Named ac word P) {d : ℕ} (hlinked : LinkedUpto ac word P d)
    (hf : f < ac.size) (hd : (word f).length ≤ d) : ac.OutAt word P (ac.outLinkOf f) (word f) := by
  unfold outLinkOf
  by_cases hroot : f = root
  · subst hroot
    rw [if_neg (by simp), h.root_out_link, h.word_root]
    exact ⟨firstOf_nil h.nil_not_mem, fun k hk => by cases hk⟩
  · obtain ⟨a, t, hword⟩ := List.exists_cons_of_ne_nil (h.word_ne_nil hf hroot)
    by_cases hout : (ac.node f).output ≠ 0
    · have hmem := (h.output_iff f hf).mp hout
      rw [if_pos ⟨hroot, hout⟩]
      refine ⟨?_, fun k hk => Option.some.inj hk ▸ hf⟩
      rw [hword, firstOf_cons, if_pos (hword ▸ hmem), Option.map_some, hword]
    · have hmem := fun hp => hout ((h.output_iff f hf).mpr hp)
      have hlink := (hlinked f hf hroot hd).out_link
      rw [if_neg fun hand => hout hand.2]
      refine hlink.congr ?_
      rw [hword, firstOf_cons, if_neg fun hp => hmem (hword ▸ hp), List.tail_cons]

/-- **One child is linked** from the links of its parent's suffixes. -/
theorem link_spec (h : Named ac word P) (hcur : cur < ac.size) (hroot : cur ≠ root)
    (hlinked : LinkedUpto ac word P (word cur).length)
    (hnext : (ac.node cur).next i = some child) :
    ∃ f o, ac.link cur i child = some (ac.setLinks child (some f) o) ∧
      Linked (ac.setLinks child (some f) o) word P child := by
  have hne := h.word_ne_nil hcur hroot
  have hl := hlinked cur hcur hroot le_rfl
  obtain ⟨-, hchild⟩ := (h.next_iff hcur).mp hnext
  obtain ⟨k, hk, hfail, hword⟩ := hl.fail
  have hlt := hl.length_lt hne hfail
  have hsize := h.length_lt hk
  -- what either way out of the loop has found
  have hfound : ∃ f < ac.size, word f = longest (ac.words word) (word k ++ [i]) ∧
      ac.link cur i child = some (ac.setLinks child (some f) (ac.outLinkOf f)) := by
    rcases climb_spec (i := i) h hlinked hk (by omega) (show _ ≤ ac.size + 1 by omega) with
      ⟨g, f, hclimb, hg, hf, hlongest⟩ | ⟨hclimb, hlongest⟩
    · exact ⟨f, hf, hlongest, by simp [link, hfail, hclimb, hg]⟩
    · exact ⟨root, h.size_pos, by rw [h.word_root, hlongest], by simp [link, hfail, hclimb]⟩
  obtain ⟨f, hf, hlongest, hlink⟩ := hfound
  have htail : word f = longest (ac.words word) (word child).tail := by
    rw [hchild, longest_tail_snoc h.prefixClosed hne, ← hword, hlongest]
  have hdepth : (word f).length ≤ (word cur).length := by
    have hle := (longest_suffix (ac.words word) (word child).tail).length_le
    rw [← htail, hchild] at hle
    simpa using hle
  have hout := outLinkOf_spec h hlinked hf hdepth
  refine ⟨f, ac.outLinkOf f, hlink, linked_setLinks_self hf htail (hout.congr ?_)⟩
  rw [htail, firstOf_longest h.sub]

/-! ## The children of one node -/

/-- The children of a node, in the order of their characters. -/
def kids (ac : ACAutomaton) (cur : ℕ) (is : List UInt8) : List ℕ :=
  is.filterMap (ac.node cur).next

theorem kids_cons (ac : ACAutomaton) (cur : ℕ) (i : UInt8) (is : List UInt8) :
    ac.kids cur (i :: is) = ((ac.node cur).next i).toList ++ ac.kids cur is := by
  unfold kids
  cases hnext : (ac.node cur).next i <;> simp [hnext]

theorem SamePaths.kids_eq (h : SamePaths ac ac') (cur : ℕ) (is : List UInt8) :
    ac'.kids cur is = ac.kids cur is := by
  rw [kids, kids, h.next_eq]

theorem mem_indices (i : UInt8) : i ∈ indices := by
  refine List.mem_map.mpr ⟨i.toNat, List.mem_range.mpr i.toNat_lt, ?_⟩
  simp

theorem nodup_indices : indices.Nodup := by
  refine List.Nodup.map_on ?_ List.nodup_range
  intro a ha b hb heq
  rw [List.mem_range] at ha hb
  have hnat := congrArg UInt8.toNat heq
  simp only [UInt8.toNat_ofNat'] at hnat
  omega

theorem mem_kids {k : ℕ} : k ∈ ac.kids cur indices ↔ ∃ i, (ac.node cur).next i = some k := by
  constructor
  · intro h
    obtain ⟨i, -, hnext⟩ := List.mem_filterMap.mp h
    exact ⟨i, hnext⟩
  · rintro ⟨i, hnext⟩
    exact List.mem_filterMap.mpr ⟨i, mem_indices i, hnext⟩

theorem IsTrie.kids_nodup (h : IsTrie ac word) (hcur : cur < ac.size) :
    (ac.kids cur indices).Nodup := by
  refine nodup_indices.filterMap ?_
  intro a b k ha hb
  obtain ⟨-, hword⟩ := (h.next_iff hcur).mp ha
  obtain ⟨-, hword'⟩ := (h.next_iff hcur).mp hb
  simpa using (List.append_inj' (hword.symm.trans hword') rfl).2

/-- What linking some nodes has achieved. -/
structure Grown (ac : ACAutomaton) (word : ℕ → List UInt8) (P : List (List UInt8))
    (ac' : ACAutomaton) (new : List ℕ) : Prop where
  named : Named ac' word P
  same : SamePaths ac ac'
  kept : ∀ n, Linked ac word P n → Linked ac' word P n
  linked : ∀ n ∈ new, Linked ac' word P n

theorem Grown.refl (h : Named ac word P) : Grown ac word P ac [] :=
  ⟨h, SamePaths.refl ac, fun _ hn => hn, fun _ hn => absurd hn List.not_mem_nil⟩

theorem Grown.trans {new new' : List ℕ} (h : Grown ac word P ac' new)
    (h' : Grown ac' word P ac'' new') : Grown ac word P ac'' (new ++ new') := by
  refine ⟨h'.named, h.same.trans h'.same, fun n hn => h'.kept n (h.kept n hn), fun n hn => ?_⟩
  rcases List.mem_append.mp hn with hn | hn
  · exact h'.kept n (h.linked n hn)
  · exact h'.linked n hn

theorem grown_setLinks (h : Named ac word P) (hne : child ≠ root) {fail out_link : Option ℕ}
    (hlinked : Linked (ac.setLinks child fail out_link) word P child) :
    Grown ac word P (ac.setLinks child fail out_link) [child] := by
  refine ⟨h.setLinks hne _ _, samePaths_setLinks _ _, fun n hn => ?_, fun n hn => ?_⟩
  · by_cases heq : n = child
    · rw [heq]
      exact hlinked
    · exact hn.setLinks heq _ _
  · rw [List.mem_singleton.mp hn]
    exact hlinked

theorem Grown.linkedUpto {new : List ℕ} {d : ℕ} (h : Grown ac word P ac' new)
    (hlinked : LinkedUpto ac word P d) : LinkedUpto ac' word P d := by
  intro n hn hroot hd
  rw [h.same.size_eq] at hn
  exact h.kept n (hlinked n hn hroot hd)

theorem IsTrie.next_ne_root (h : IsTrie ac word) (hcur : cur < ac.size)
    (hnext : (ac.node cur).next i = some child) : child ≠ root := by
  refine h.ne_root ?_
  rw [((h.next_iff hcur).mp hnext).2]
  exact List.concat_ne_nil i (word cur)

/-- **The inner loop of `build`** links all children of a node. -/
theorem visit_spec (is : List UInt8) (h : Named ac word P) (hcur : cur < ac.size)
    (hroot : cur ≠ root) (hlinked : LinkedUpto ac word P (word cur).length) (q : List ℕ) :
    ∃ ac', visit cur is ac q = some (ac', q ++ ac.kids cur is) ∧
      Grown ac word P ac' (ac.kids cur is) := by
  induction is generalizing ac q with
  | nil => exact ⟨ac, by simp [visit, kids], Grown.refl h⟩
  | cons i is ih =>
      rw [kids_cons, visit]
      cases hnext : (ac.node cur).next i with
      | none => exact ih h hcur hlinked q
      | some child =>
          obtain ⟨f, o, hlink, hself⟩ := link_spec h hcur hroot hlinked hnext
          have hgrown := grown_setLinks h (h.next_ne_root hcur hnext) hself
          obtain ⟨ac', hvisit, hrest⟩ :=
            ih hgrown.named hcur (hgrown.linkedUpto hlinked) (q ++ [child])
          rw [hgrown.same.kids_eq] at hvisit hrest
          refine ⟨ac', ?_, hgrown.trans hrest⟩
          simp only [hlink, Option.bind_some, hvisit, List.append_assoc]
          rfl

theorem firstLevel_spec (is : List UInt8) (h : Named ac word P) :
    ∃ ac', ac.firstLevel is = (ac', ac.kids root is) ∧ Grown ac word P ac' (ac.kids root is) := by
  induction is generalizing ac with
  | nil => exact ⟨ac, rfl, Grown.refl h⟩
  | cons i is ih =>
      rw [kids_cons, firstLevel]
      cases hnext : (ac.node root).next i with
      | none => exact ih h
      | some n =>
          obtain ⟨hn, hword⟩ := (h.next_iff h.size_pos).mp hnext
          have htail : (word n).tail = [] := by rw [hword, h.word_root]; rfl
          have hself : Linked (ac.setLinks n (some root) none) word P n := by
            refine linked_setLinks_self h.size_pos ?_ ?_
            · rw [htail, longest_nil, h.word_root]
            · rw [htail]
              exact ⟨firstOf_nil h.nil_not_mem, fun k hk => by cases hk⟩
          have hgrown := grown_setLinks h (h.next_ne_root h.size_pos hnext) hself
          obtain ⟨ac', hfirst, hrest⟩ := ih hgrown.named
          rw [hgrown.same.kids_eq] at hfirst hrest
          refine ⟨ac', ?_, hgrown.trans hrest⟩
          simp only [hfirst]
          rfl

/-! ## Breadth first -/

/-- The queue of `build` after the nodes `done` were taken from it. -/
structure Frontier (ac : ACAutomaton) (word : ℕ → List UInt8) (P : List (List UInt8))
    (done q : List ℕ) : Prop extends Named ac word P where
  nodup : (done ++ q).Nodup
  reached : ∀ n ∈ done ++ q, n < ac.size ∧ n ≠ root ∧ Linked ac word P n
  ordered : q.Pairwise fun a b => (word a).length ≤ (word b).length
  near : ∀ a ∈ q.head?, ∀ b ∈ q, (word b).length ≤ (word a).length + 1
  closed : ∀ n < ac.size, n = root ∨ n ∈ done → ∀ i k, (ac.node n).next i = some k → k ∈ done ++ q
  parents : ∀ k ∈ done ++ q, ∃ n < ac.size, (n = root ∨ n ∈ done) ∧
    ∃ i, (ac.node n).next i = some k

section

variable {done q : List ℕ}

/-- A node that is not reached lies below the queue. -/
theorem Frontier.reached_or (h : Frontier ac word P done q) {d : ℕ} (hn : n < ac.size)
    (hroot : n ≠ root) (hd : (word n).length = d) :
    n ∈ done ++ q ∨ ∃ p ∈ q, (word p).length < d := by
  induction d generalizing n with
  | zero => exact absurd (List.length_eq_zero_iff.mp hd) (h.word_ne_nil hn hroot)
  | succ d ih =>
      obtain ⟨p, hp, i, hword⟩ := h.parent hn hroot
      have hlen : (word p).length = d := by
        rw [hword, List.length_append, List.length_singleton] at hd
        omega
      have hnext := (h.next_iff hp).mpr ⟨hn, hword⟩
      by_cases hproot : p = root
      · exact Or.inl (h.closed p hp (Or.inl hproot) i n hnext)
      · rcases ih hp hproot hlen with hmem | ⟨p', hp', hlt⟩
        · rcases List.mem_append.mp hmem with hdone | hq
          · exact Or.inl (h.closed p hp (Or.inr hdone) i n hnext)
          · exact Or.inr ⟨p, hq, by omega⟩
        · exact Or.inr ⟨p', hp', by omega⟩

/-- **Breadth first**: every node as deep as the next one is linked. -/
theorem Frontier.linkedUpto (h : Frontier ac word P done (cur :: q)) :
    LinkedUpto ac word P (word cur).length := by
  intro n hn hroot hd
  rcases h.reached_or hn hroot rfl with hmem | ⟨p, hp, hlt⟩
  · exact (h.reached n hmem).2.2
  · rcases List.mem_cons.mp hp with rfl | hp
    · omega
    · have hle := List.rel_of_pairwise_cons h.ordered hp
      omega

theorem Frontier.linked_of_nil (h : Frontier ac word P done []) :
    ∀ n < ac.size, n ≠ root → Linked ac word P n := by
  intro n hn hroot
  rcases h.reached_or hn hroot rfl with hmem | ⟨p, hp, -⟩
  · exact (h.reached n hmem).2.2
  · exact absurd hp List.not_mem_nil

theorem Frontier.length_le (h : Frontier ac word P done q) : done.length ≤ ac.size := by
  have hsub : done ⊆ List.range ac.size := fun n hn =>
    List.mem_range.mpr (h.reached n (List.mem_append_left _ hn)).1
  have hle := (List.Nodup.subperm (List.nodup_append.mp h.nodup).1 hsub).length_le
  rwa [List.length_range] at hle

theorem Frontier.kid_length (h : Frontier ac word P done q) (hcur : cur < ac.size) {k : ℕ}
    (hk : k ∈ ac.kids cur indices) : (word k).length = (word cur).length + 1 := by
  obtain ⟨i, hnext⟩ := mem_kids.mp hk
  rw [((h.next_iff hcur).mp hnext).2, List.length_append, List.length_singleton]

theorem Frontier.kid_fresh (h : Frontier ac word P done (cur :: q)) {k : ℕ}
    (hk : k ∈ ac.kids cur indices) : k ∉ done ++ cur :: q := by
  intro hmem
  have hcurmem : cur ∈ done ++ cur :: q := by simp
  obtain ⟨hcur, hroot, -⟩ := h.reached cur hcurmem
  obtain ⟨i, hnext⟩ := mem_kids.mp hk
  obtain ⟨n, hn, hor, j, hnext'⟩ := h.parents k hmem
  have hword := ((h.next_iff hcur).mp hnext).2
  have hword' := ((h.next_iff hn).mp hnext').2
  obtain rfl := h.inj hn hcur (List.append_inj' (hword'.symm.trans hword) rfl).1
  rcases hor with rfl | hdone
  · exact hroot rfl
  · exact (List.nodup_append.mp h.nodup).2.2 n hdone n (by simp) rfl

/-- One turn of the breadth-first loop. -/
theorem Frontier.step (h : Frontier ac word P done (cur :: q))
    (hgrown : Grown ac word P ac' (ac.kids cur indices)) :
    Frontier ac' word P (done ++ [cur]) (q ++ ac.kids cur indices) := by
  obtain ⟨hcur, hroot, -⟩ := h.reached cur (by simp)
  have hsplit : done ++ [cur] ++ (q ++ ac.kids cur indices) =
      (done ++ cur :: q) ++ ac.kids cur indices := by simp
  have hnear : ∀ b ∈ q, (word b).length ≤ (word cur).length + 1 := fun b hb =>
    h.near cur rfl b (List.mem_cons_of_mem _ hb)
  refine { toNamed := hgrown.named, nodup := ?_, reached := ?_, ordered := ?_, near := ?_,
           closed := ?_, parents := ?_ }
  · rw [hsplit]
    refine List.nodup_append.mpr ⟨h.nodup, h.kids_nodup hcur, fun a ha b hb heq => ?_⟩
    exact h.kid_fresh hb (heq ▸ ha)
  · intro n hn
    rw [hsplit, List.mem_append] at hn
    rw [hgrown.same.size_eq]
    rcases hn with hn | hn
    · obtain ⟨hlt, hne, hl⟩ := h.reached n hn
      exact ⟨hlt, hne, hgrown.kept n hl⟩
    · obtain ⟨i, hnext⟩ := mem_kids.mp hn
      exact ⟨((h.next_iff hcur).mp hnext).1, h.next_ne_root hcur hnext, hgrown.linked n hn⟩
  · refine List.pairwise_append.mpr ⟨List.Pairwise.of_cons h.ordered, ?_, fun a ha b hb => ?_⟩
    · refine List.pairwise_of_forall_mem_list fun a ha b hb => ?_
      rw [h.kid_length hcur ha, h.kid_length hcur hb]
    · rw [h.kid_length hcur hb]
      exact hnear a ha
  · intro a ha b hb
    have hlow : (word cur).length ≤ (word a).length := by
      have hmem := List.mem_of_mem_head? ha
      rcases List.mem_append.mp hmem with hq | hkid
      · exact List.rel_of_pairwise_cons h.ordered hq
      · rw [h.kid_length hcur hkid]
        omega
    rcases List.mem_append.mp hb with hq | hkid
    · have hle := hnear b hq
      omega
    · rw [h.kid_length hcur hkid]
      omega
  · intro n hn hor i k hnext
    rw [hgrown.same.size_eq] at hn
    rw [hgrown.same.next_eq] at hnext
    rw [hsplit, List.mem_append]
    rcases hor with rfl | hmem
    · exact Or.inl (h.closed root hn (Or.inl rfl) i k hnext)
    · rcases List.mem_append.mp hmem with hdone | hself
      · exact Or.inl (h.closed n hn (Or.inr hdone) i k hnext)
      · rw [List.mem_singleton] at hself
        subst hself
        exact Or.inr (mem_kids.mpr ⟨i, hnext⟩)
  · intro k hk
    rw [hsplit, List.mem_append] at hk
    rw [hgrown.same.size_eq]
    rcases hk with hk | hk
    · obtain ⟨n, hn, hor, i, hnext⟩ := h.parents k hk
      refine ⟨n, hn, ?_, i, by rw [hgrown.same.next_eq, hnext]⟩
      exact hor.imp_right fun hdone => List.mem_append_left _ hdone
    · obtain ⟨i, hnext⟩ := mem_kids.mp hk
      exact ⟨cur, hcur, Or.inr (by simp), i, by rw [hgrown.same.next_eq, hnext]⟩

/-- The breadth-first loop ends and links every node. -/
theorem search_spec (budget : ℕ) (h : Frontier ac word P done q)
    (hbudget : ac.size < budget + done.length) :
    ∃ ac', search budget ac q = some ac' ∧ SamePaths ac ac' ∧ Named ac' word P ∧
      ∀ n < ac'.size, n ≠ root → Linked ac' word P n := by
  induction budget generalizing ac done q with
  | zero =>
      have hle := h.length_le
      omega
  | succ budget ih =>
      cases q with
      | nil => exact ⟨ac, rfl, SamePaths.refl ac, h.toNamed, h.linked_of_nil⟩
      | cons cur q =>
          obtain ⟨hcur, hroot, -⟩ := h.reached cur (by simp)
          obtain ⟨ac₁, hvisit, hgrown⟩ :=
            visit_spec indices h.toNamed hcur hroot h.linkedUpto q
          have hlt : ac₁.size < budget + (done ++ [cur]).length := by
            rw [hgrown.same.size_eq, List.length_append, List.length_singleton]
            omega
          obtain ⟨ac', hsearch, hsame, hdone⟩ := ih (h.step hgrown) hlt
          refine ⟨ac', ?_, hgrown.same.trans hsame, hdone⟩
          rw [search, hvisit, Option.bind_some]
          exact hsearch

end

theorem frontier_firstLevel (h : Named ac word P)
    (hgrown : Grown ac word P ac' (ac.kids root indices)) :
    Frontier ac' word P [] (ac.kids root indices) := by
  have hlen : ∀ k ∈ ac.kids root indices, (word k).length = 1 := by
    intro k hk
    obtain ⟨i, hnext⟩ := mem_kids.mp hk
    rw [((h.next_iff h.size_pos).mp hnext).2, h.word_root]
    rfl
  refine { toNamed := hgrown.named, nodup := h.kids_nodup h.size_pos, reached := ?_,
           ordered := ?_, near := ?_, closed := ?_, parents := ?_ }
  · intro n hn
    obtain ⟨i, hnext⟩ := mem_kids.mp hn
    rw [hgrown.same.size_eq]
    exact ⟨((h.next_iff h.size_pos).mp hnext).1, h.next_ne_root h.size_pos hnext,
      hgrown.linked n hn⟩
  · refine List.pairwise_of_forall_mem_list fun a ha b hb => ?_
    rw [hlen a ha, hlen b hb]
  · intro a ha b hb
    rw [hlen b hb]
    omega
  · intro n _ hor i k hnext
    rw [hgrown.same.next_eq] at hnext
    rcases hor with rfl | hmem
    · exact mem_kids.mpr ⟨i, hnext⟩
    · exact absurd hmem List.not_mem_nil
  · intro k hk
    obtain ⟨i, hnext⟩ := mem_kids.mp hk
    exact ⟨root, hgrown.named.size_pos, Or.inl rfl, i, by rw [hgrown.same.next_eq, hnext]⟩

/-- **`build` ends**, with the paths as they were and every node linked. -/
theorem build_spec (h : Named ac word P) :
    ∃ ac', ac.build = some ac' ∧ SamePaths ac ac' ∧ Named ac' word P ∧
      ∀ n < ac'.size, n ≠ root → Linked ac' word P n := by
  obtain ⟨ac₁, hfirst, hgrown⟩ := firstLevel_spec indices h
  have hlt : ac₁.size < ac.size + 1 + ([] : List ℕ).length := by
    rw [hgrown.same.size_eq]
    exact Nat.lt_succ_self _
  obtain ⟨ac', hsearch, hsame, hdone⟩ := search_spec _ (frontier_firstLevel h hgrown) hlt
  refine ⟨ac', ?_, hgrown.same.trans hsame, hdone⟩
  rw [build, hfirst]
  exact hsearch

end ACAutomaton

end CodeScope.Util
