import CodeScope.Util.ACAutomaton

/-! # The trie of the pattern automaton

`word` names each node of the arena by the characters on its path. `IsTrie` says that the arena and
the names fit, `Holds` that moreover the outputs are those of the patterns added. -/

namespace CodeScope.Util

namespace ACAutomaton

open Suffixes

variable {ac ac' ac'' : ACAutomaton} {word word' word'' : ℕ → List UInt8} {cur n : ℕ} {c : UInt8}

/-- The words of the nodes. -/
def words (ac : ACAutomaton) (word : ℕ → List UInt8) : List (List UInt8) :=
  (List.range ac.size).map word

/-- The arena is a trie, and `word` spells its paths. -/
structure IsTrie (ac : ACAutomaton) (word : ℕ → List UInt8) : Prop where
  size_pos : 0 < ac.size
  word_root : word root = []
  next_iff : ∀ {n c k}, n < ac.size →
    ((ac.node n).next c = some k ↔ k < ac.size ∧ word k = word n ++ [c])
  inj : ∀ {n k}, n < ac.size → k < ac.size → word n = word k → n = k
  parent : ∀ {k}, k < ac.size → k ≠ root → ∃ n < ac.size, ∃ c, word k = word n ++ [c]

theorem mem_words {w : List UInt8} : w ∈ ac.words word ↔ ∃ n < ac.size, word n = w := by
  simp [words]

namespace IsTrie

theorem mem (n : ℕ) (hn : n < ac.size) : word n ∈ ac.words word := mem_words.mpr ⟨n, hn, rfl⟩

theorem word_ne_nil (h : IsTrie ac word) (hn : n < ac.size) (hne : n ≠ root) : word n ≠ [] := by
  obtain ⟨k, -, c, hword⟩ := h.parent hn hne
  rw [hword]
  exact List.concat_ne_nil c (word k)

theorem ne_root (h : IsTrie ac word) (hne : word n ≠ []) : n ≠ root := by
  rintro rfl
  exact hne h.word_root

theorem prefixClosed (h : IsTrie ac word) : PrefixClosed (ac.words word) := by
  refine ⟨mem_words.mpr ⟨root, h.size_pos, h.word_root⟩, fun {w c} hmem => ?_⟩
  obtain ⟨k, hk, hword⟩ := mem_words.mp hmem
  have hne : k ≠ root := h.ne_root (hword ▸ List.concat_ne_nil c w)
  obtain ⟨n, hn, d, hparent⟩ := h.parent hk hne
  have hw : word n = w := (List.append_inj' (hparent.symm.trans hword) rfl).1
  exact hw ▸ mem n hn

theorem length_lt (h : IsTrie ac word) (hn : n < ac.size) : (word n).length < ac.size := by
  have hlt := h.prefixClosed.length_lt (mem n hn)
  simpa [words] using hlt

theorem next_none (h : IsTrie ac word) (hn : n < ac.size) (hnone : (ac.node n).next c = none) :
    word n ++ [c] ∉ ac.words word := by
  intro hmem
  obtain ⟨k, hk, hword⟩ := mem_words.mp hmem
  rw [(h.next_iff hn).mpr ⟨hk, hword⟩] at hnone
  cases hnone

theorem of_next (h : IsTrie ac word) (hsize : ac'.size = ac.size)
    (hnext : ∀ n, (ac'.node n).next = (ac.node n).next) : IsTrie ac' word where
  size_pos := hsize ▸ h.size_pos
  word_root := h.word_root
  next_iff := by
    intro n c k hn
    rw [hnext, hsize]
    exact h.next_iff (hsize ▸ hn)
  inj := by
    rw [hsize]
    exact h.inj
  parent := by
    rw [hsize]
    exact h.parent

end IsTrie

theorem isTrie_empty : IsTrie empty (fun _ => []) where
  size_pos := Nat.one_pos
  word_root := rfl
  next_iff := by simp [empty, ACNode.fresh]
  inj := by
    intro n k hn hk _
    simp only [empty, Nat.lt_one_iff] at hn hk
    rw [hn, hk]
  parent := by
    intro k hk hne
    exact absurd (Nat.lt_one_iff.mp hk) hne

/-! ## A new node -/

/-- The names after a node was made. -/
def grownWord (ac : ACAutomaton) (word : ℕ → List UInt8) (cur : ℕ) (c : UInt8) : ℕ → List UInt8 :=
  Function.update word ac.size (word cur ++ [c])

theorem grownWord_old (hn : n < ac.size) : ac.grownWord word cur c n = word n :=
  Function.update_of_ne (Nat.ne_of_lt hn) _ _

theorem grownWord_new : ac.grownWord word cur c ac.size = word cur ++ [c] :=
  Function.update_self _ _ _

theorem grow_new : (ac.grow cur c).node ac.size = ACNode.fresh := Function.update_self _ _ _

theorem grow_old (hn : n < ac.size) : (ac.grow cur c).node n =
    { ac.node n with
      next := if n = cur then Function.update (ac.node n).next c (some ac.size)
        else (ac.node n).next } := by
  simp only [grow, Function.update_of_ne (Nat.ne_of_lt hn)]
  by_cases h : n = cur
  · subst h
    simp
  · simp [h]

theorem IsTrie.grow (h : IsTrie ac word) (hcur : cur < ac.size)
    (hnone : (ac.node cur).next c = none) :
    IsTrie (ac.grow cur c) (ac.grownWord word cur c) := by
  have hfresh := h.next_none hcur hnone
  have hsize : (ac.grow cur c).size = ac.size + 1 := rfl
  have hcases : ∀ {k}, k < (ac.grow cur c).size → k < ac.size ∨ k = ac.size := by
    intro k hk
    omega
  refine ⟨by omega, ?_, ?_, ?_, ?_⟩
  · rw [grownWord_old h.size_pos, h.word_root]
  · intro n d k hn
    rcases hcases hn with hn | rfl
    · rw [grow_old hn, grownWord_old hn]
      by_cases hedge : n = cur ∧ d = c
      · obtain ⟨rfl, rfl⟩ := hedge
        simp only [if_true, Function.update_self, Option.some.injEq]
        constructor
        · rintro rfl
          exact ⟨by omega, grownWord_new⟩
        · rintro ⟨hk, hword⟩
          rcases hcases hk with hk | rfl
          · rw [grownWord_old hk] at hword
            exact absurd (mem_words.mpr ⟨k, hk, hword⟩) hfresh
          · rfl
      · have hnext : (if n = cur then Function.update (ac.node n).next c (some ac.size)
            else (ac.node n).next) d = (ac.node n).next d := by
          split_ifs with hn'
          · exact Function.update_of_ne (fun hd => hedge ⟨hn', hd⟩) _ _
          · rfl
        simp only [hnext, h.next_iff hn]
        constructor
        · rintro ⟨hk, hword⟩
          exact ⟨by omega, (grownWord_old hk).trans hword⟩
        · rintro ⟨hk, hword⟩
          rcases hcases hk with hk | rfl
          · rw [grownWord_old hk] at hword
            exact ⟨hk, hword⟩
          · rw [grownWord_new] at hword
            obtain ⟨hinit, hlast⟩ := List.append_inj' hword rfl
            exact absurd ⟨(h.inj hcur hn hinit).symm, by simpa using hlast.symm⟩ hedge
    · rw [grow_new, grownWord_new]
      constructor
      · intro hnext
        cases hnext
      · rintro ⟨hk, hword⟩
        rcases hcases hk with hk | rfl
        · rw [grownWord_old hk] at hword
          exact absurd (h.prefixClosed.init_mem (mem_words.mpr ⟨k, hk, hword⟩)) hfresh
        · rw [grownWord_new] at hword
          simp at hword
  · intro n k hn hk hword
    rcases hcases hn with hn | rfl <;> rcases hcases hk with hk | rfl
    · rw [grownWord_old hn, grownWord_old hk] at hword
      exact h.inj hn hk hword
    · rw [grownWord_old hn, grownWord_new] at hword
      exact absurd (mem_words.mpr ⟨n, hn, hword⟩) hfresh
    · rw [grownWord_old hk, grownWord_new] at hword
      exact absurd (mem_words.mpr ⟨k, hk, hword.symm⟩) hfresh
    · rfl
  · intro k hk hne
    rcases hcases hk with hk | rfl
    · obtain ⟨n, hn, d, hword⟩ := h.parent hk hne
      exact ⟨n, by omega, d, by rw [grownWord_old hk, grownWord_old hn, hword]⟩
    · exact ⟨cur, by omega, c, by rw [grownWord_new, grownWord_old hcur]⟩

/-! ## The path of a pattern -/

/-- Nothing but `next` has changed, and the nodes made since are fresh but for `next`. -/
structure Extends (ac : ACAutomaton) (word : ℕ → List UInt8) (ac' : ACAutomaton)
    (word' : ℕ → List UInt8) : Prop where
  size_le : ac.size ≤ ac'.size
  word_eq : ∀ n < ac.size, word' n = word n
  old : ∀ n < ac.size, ∃ next, ac'.node n = { ac.node n with next := next }
  new : ∀ n, ac.size ≤ n → n < ac'.size → ∃ next, ac'.node n = { ACNode.fresh with next := next }

theorem Extends.refl (ac : ACAutomaton) (word : ℕ → List UInt8) : Extends ac word ac word :=
  ⟨le_rfl, fun _ _ => rfl, fun n _ => ⟨(ac.node n).next, rfl⟩,
    fun _ hle hlt => absurd hlt (Nat.not_lt.mpr hle)⟩

theorem Extends.trans (h : Extends ac word ac' word') (h' : Extends ac' word' ac'' word'') :
    Extends ac word ac'' word'' := by
  have hle := h.size_le
  refine ⟨hle.trans h'.size_le, ?_, ?_, ?_⟩
  · intro n hn
    rw [h'.word_eq n (by omega), h.word_eq n hn]
  · intro n hn
    obtain ⟨next, heq⟩ := h.old n hn
    obtain ⟨next', heq'⟩ := h'.old n (by omega)
    exact ⟨next', by rw [heq', heq]⟩
  · intro n hge hlt
    by_cases hn : n < ac'.size
    · obtain ⟨next, heq⟩ := h.new n hge hn
      obtain ⟨next', heq'⟩ := h'.old n hn
      exact ⟨next', by rw [heq', heq]⟩
    · exact h'.new n (Nat.not_lt.mp hn) hlt

theorem extends_grow : Extends ac word (ac.grow cur c) (ac.grownWord word cur c) := by
  refine ⟨Nat.le_succ _, fun n hn => grownWord_old hn, fun n hn => ⟨_, grow_old hn⟩, ?_⟩
  intro n hge hlt
  obtain rfl : n = ac.size := Nat.le_antisymm (Nat.le_of_lt_succ hlt) hge
  exact ⟨_, grow_new⟩

theorem descend_spec (h : IsTrie ac word) (hcur : cur < ac.size) (c : UInt8) :
    ∃ word', IsTrie (ac.descend cur c).1 word' ∧ Extends ac word (ac.descend cur c).1 word' ∧
      (ac.descend cur c).2 < (ac.descend cur c).1.size ∧
      word' (ac.descend cur c).2 = word cur ++ [c] := by
  unfold descend
  cases hnext : (ac.node cur).next c with
  | some child =>
      obtain ⟨hlt, hword⟩ := (h.next_iff hcur).mp hnext
      exact ⟨word, h, Extends.refl ac word, hlt, hword⟩
  | none =>
      exact ⟨_, h.grow hcur hnext, extends_grow, Nat.lt_succ_self _, grownWord_new⟩

theorem descendAll_spec (p : List UInt8) (h : IsTrie ac word) (hcur : cur < ac.size) :
    ∃ word', IsTrie (ac.descendAll cur p).1 word' ∧ Extends ac word (ac.descendAll cur p).1 word' ∧
      (ac.descendAll cur p).2 < (ac.descendAll cur p).1.size ∧
      word' (ac.descendAll cur p).2 = word cur ++ p := by
  induction p generalizing ac word cur with
  | nil => exact ⟨word, h, Extends.refl ac word, hcur, (List.append_nil _).symm⟩
  | cons c p ih =>
      obtain ⟨word', htrie, hext, hlt, hword⟩ := descend_spec h hcur c
      obtain ⟨word'', htrie', hext', hlt', hword'⟩ := ih htrie hlt
      refine ⟨word'', htrie', hext.trans hext', hlt', ?_⟩
      rw [descendAll, hword', hword, List.append_assoc, List.singleton_append]

/-! ## The patterns added -/

/-- The id a pattern was last added with. -/
def idOf (pats : List (List UInt8 × ℤ)) (p : List UInt8) : Option ℤ := pats.reverse.lookup p

theorem idOf_snoc (pats : List (List UInt8 × ℤ)) (p q : List UInt8) (id : ℤ) :
    idOf (pats ++ [(p, id)]) q = if q = p then some id else idOf pats q := by
  unfold idOf
  rw [List.reverse_append, List.reverse_singleton, List.singleton_append, List.lookup_cons]
  by_cases h : q = p
  · simp [h]
  · simp [beq_eq_false_iff_ne.mpr h, h]

/-- A trie with the patterns' ids and lengths at their nodes and no links yet. -/
structure Holds (ac : ACAutomaton) (word : ℕ → List UInt8) (pats : List (List UInt8 × ℤ)) : Prop
    extends IsTrie ac word where
  output_eq : ∀ n < ac.size, (ac.node n).output = (idOf pats (word n)).getD 0
  output_len_eq : ∀ n < ac.size, (idOf pats (word n)).isSome →
    (ac.node n).output_len = (word n).length
  mem_of_id : ∀ p, (idOf pats p).isSome → p ∈ ac.words word
  unlinked : ∀ n < ac.size, (ac.node n).fail = none ∧ (ac.node n).out_link = none

theorem holds_empty : Holds empty (fun _ => []) [] :=
  ⟨isTrie_empty, fun _ _ => rfl, fun _ _ h => absurd h Bool.false_ne_true,
    fun _ h => absurd h Bool.false_ne_true, fun _ _ => ⟨rfl, rfl⟩⟩

variable {pats : List (List UInt8 × ℤ)}

/-- A longer trie holds the same patterns. -/
theorem Holds.extends (h : Holds ac word pats) (htrie : IsTrie ac' word')
    (hext : Extends ac word ac' word') : Holds ac' word' pats := by
  have hle := hext.size_le
  -- a new node has a new name, so no pattern ends there
  have hnew : ∀ n, ac.size ≤ n → n < ac'.size → idOf pats (word' n) = none := by
    intro n hge hlt
    by_contra hsome
    obtain ⟨k, hk, hword⟩ := mem_words.mp (h.mem_of_id _ (Option.isSome_iff_ne_none.mpr hsome))
    have heq := htrie.inj (show k < ac'.size by omega) hlt ((hext.word_eq k hk).trans hword)
    omega
  refine ⟨htrie, fun n hn => ?_, fun n hn hsome => ?_, fun p hp => ?_, fun n hn => ?_⟩
  · by_cases hold : n < ac.size
    · obtain ⟨next, heq⟩ := hext.old n hold
      rw [heq, hext.word_eq n hold]
      exact h.output_eq n hold
    · obtain ⟨next, heq⟩ := hext.new n (Nat.not_lt.mp hold) hn
      rw [heq, hnew n (Nat.not_lt.mp hold) hn]
      rfl
  · by_cases hold : n < ac.size
    · obtain ⟨next, heq⟩ := hext.old n hold
      rw [hext.word_eq n hold] at hsome ⊢
      rw [heq]
      exact h.output_len_eq n hold hsome
    · rw [hnew n (Nat.not_lt.mp hold) hn] at hsome
      exact absurd hsome Bool.false_ne_true
  · obtain ⟨k, hk, hword⟩ := mem_words.mp (h.mem_of_id p hp)
    exact mem_words.mpr ⟨k, by omega, (hext.word_eq k hk).trans hword⟩
  · by_cases hold : n < ac.size
    · obtain ⟨next, heq⟩ := hext.old n hold
      rw [heq]
      exact h.unlinked n hold
    · obtain ⟨next, heq⟩ := hext.new n (Nat.not_lt.mp hold) hn
      rw [heq]
      exact ⟨rfl, rfl⟩

/-- The output at a pattern's node. -/
theorem Holds.setOutput (h : Holds ac word pats) (hcur : cur < ac.size) (id : ℤ) :
    Holds (ac.setNode cur
        { ac.node cur with output := id, output_len := (word cur).length }) word
      (pats ++ [(word cur, id)]) := by
  refine ⟨h.toIsTrie.of_next rfl fun n => ?_, fun n hn => ?_, fun n hn => ?_, fun p hp => ?_,
    fun n hn => ?_⟩
  · by_cases hn : n = cur
    · subst hn
      simp [setNode]
    · simp [setNode, Function.update_of_ne hn]
  · rw [idOf_snoc]
    by_cases hcase : n = cur
    · subst hcase
      simp [setNode]
    · have hne : word n ≠ word cur := fun heq => hcase (h.inj hn hcur heq)
      simp only [setNode, Function.update_of_ne hcase, if_neg hne]
      exact h.output_eq n hn
  · rw [idOf_snoc]
    by_cases hcase : n = cur
    · subst hcase
      simp [setNode]
    · have hne : word n ≠ word cur := fun heq => hcase (h.inj hn hcur heq)
      simp only [setNode, Function.update_of_ne hcase, if_neg hne]
      exact h.output_len_eq n hn
  · rw [idOf_snoc] at hp
    split_ifs at hp with hcase
    · exact mem_words.mpr ⟨cur, hcur, hcase.symm⟩
    · exact h.mem_of_id p hp
  · by_cases hcase : n = cur
    · subst hcase
      simpa [setNode] using h.unlinked n hn
    · simpa [setNode, Function.update_of_ne hcase] using h.unlinked n hn

theorem Holds.addPattern (h : Holds ac word pats) {pattern : List UInt8} (hne : pattern ≠ [])
    (id : ℤ) : ∃ word', Holds (ac.addPattern pattern id) word' (pats ++ [(pattern, id)]) := by
  obtain ⟨word', htrie, hext, hlt, hword⟩ := descendAll_spec pattern h.toIsTrie h.size_pos
  rw [h.word_root, List.nil_append] at hword
  refine ⟨word', ?_⟩
  have hset := (h.extends htrie hext).setOutput hlt id
  rw [hword] at hset
  simpa [ACAutomaton.addPattern, hne] using hset

/-- **The trie of the patterns**: whatever the patterns are and in whatever order they come. -/
theorem ofPatterns_holds (pats : List (List UInt8 × ℤ)) (hne : ∀ p ∈ pats, p.1 ≠ []) :
    ∃ word, Holds (ofPatterns pats) word pats := by
  induction pats using List.reverseRecOn with
  | nil => exact ⟨_, holds_empty⟩
  | append_singleton pats p ih =>
      obtain ⟨word, h⟩ := ih fun q hq => hne q (List.mem_append_left _ hq)
      obtain ⟨word', h'⟩ := h.addPattern (hne p (by simp)) p.2
      refine ⟨word', ?_⟩
      simpa [ofPatterns] using h'

end ACAutomaton

end CodeScope.Util
