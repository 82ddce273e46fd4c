import Mathlib.Data.List.TakeWhile
import CodeScope.Util.ACLinks

/-! # What the pattern automaton finds

While the text is read the current node is the longest suffix of what was read that is a node, and
the nodes on its `out_link` chain are the patterns that end there. So the best match so far is the
longest pattern read, and of several the one that ended first. -/

namespace CodeScope.Util

namespace ACAutomaton

open Suffixes

variable {ac ac' : ACAutomaton} {word : ℕ → List UInt8} {P : List (List UInt8)}
variable {pats : List (List UInt8 × ℤ)} {cur n : ℕ} {i : UInt8}

/-- An automaton after `build`. -/
structure Built (ac : ACAutomaton) (word : ℕ → List UInt8) (pats : List (List UInt8 × ℤ)) : Prop
    extends Named ac word (pats.map Prod.fst) where
  linked : ∀ n < ac.size, n ≠ root → Linked ac word (pats.map Prod.fst) n
  output_eq : ∀ n < ac.size, (ac.node n).output = (idOf pats (word n)).getD 0
  output_len_eq : ∀ n < ac.size, (idOf pats (word n)).isSome →
    (ac.node n).output_len = (word n).length

theorem idOf_isSome (p : List UInt8) : (idOf pats p).isSome ↔ p ∈ pats.map Prod.fst := by
  induction pats using List.reverseRecOn with
  | nil => simp [idOf]
  | append_singleton pats q ih =>
      obtain ⟨q, id⟩ := q
      rw [idOf_snoc, List.map_append, List.mem_append, ← ih]
      by_cases h : p = q <;> simp [h]

theorem idOf_mem {p : List UInt8} {id : ℤ} (h : idOf pats p = some id) : (p, id) ∈ pats := by
  induction pats using List.reverseRecOn with
  | nil => cases h
  | append_singleton pats q ih =>
      obtain ⟨q, id'⟩ := q
      rw [idOf_snoc] at h
      split_ifs at h with heq
      · obtain rfl := Option.some.inj h
        simp [heq]
      · exact List.mem_append_left _ (ih h)

theorem Holds.named (h : Holds ac word pats) (hne : ∀ p ∈ pats, p.1 ≠ [])
    (hid : ∀ p ∈ pats, p.2 ≠ 0) : Named ac word (pats.map Prod.fst) := by
  refine ⟨h.toIsTrie, fun n hn => ?_, ?_, fun p hp => ?_, (h.unlinked _ h.size_pos).1,
    (h.unlinked _ h.size_pos).2⟩
  · rw [h.output_eq n hn, ← idOf_isSome]
    cases hsome : idOf pats (word n) with
    | none => simp
    | some id => simpa using hid _ (idOf_mem hsome)
  · intro hmem
    obtain ⟨p, hp, hnil⟩ := List.mem_map.mp hmem
    exact hne p hp hnil
  · exact h.mem_of_id p ((idOf_isSome p).mpr hp)

theorem Holds.build (h : Holds ac word pats) (hne : ∀ p ∈ pats, p.1 ≠ [])
    (hid : ∀ p ∈ pats, p.2 ≠ 0) : ∃ ac', ac.build = some ac' ∧ Built ac' word pats := by
  obtain ⟨ac', hbuild, hsame, hnamed, hlinked⟩ := build_spec (h.named hne hid)
  refine ⟨ac', hbuild, ⟨hnamed, hlinked, fun n hn => ?_, fun n hn => ?_⟩⟩
  · rw [hsame.output_eq]
    exact h.output_eq n (hsame.size_eq ▸ hn)
  · rw [hsame.output_len_eq]
    exact h.output_len_eq n (hsame.size_eq ▸ hn)

/-! ## The current node -/

theorem follow_spec (h : Built ac word pats) {budget : ℕ} (hn : n < ac.size)
    (hbudget : (word n).length < budget) :
    ∃ g < ac.size, ac.follow i budget n = some g ∧
      longest (ac.words word) (word g ++ [i]) = longest (ac.words word) (word n ++ [i]) ∧
      (g = root ∨ (ac.node g).next i ≠ none) := by
  induction budget generalizing n with
  | zero => omega
  | succ budget ih =>
      by_cases hstop : n ≠ root ∧ (ac.node n).next i = none
      · obtain ⟨hroot, hnext⟩ := hstop
        have hne := h.word_ne_nil hn hroot
        have hl := h.linked n hn hroot
        obtain ⟨k, hk, hfail, hword⟩ := hl.fail
        have hlt := hl.length_lt hne hfail
        have hfollow : ac.follow i (budget + 1) n = ac.follow i budget k := by
          simp [follow, hroot, hnext, hfail]
        rw [hfollow, longest_miss h.prefixClosed hne (h.next_none hn hnext), ← hword]
        exact ih hk (by omega)
      · refine ⟨n, hn, ?_, rfl, ?_⟩
        · rw [follow, if_neg]
          simpa using hstop
        · by_cases hroot : n = root
          · exact Or.inl hroot
          · exact Or.inr fun hnext => hstop ⟨hroot, hnext⟩

/-- **The scan's invariant**: the next node is the longest suffix after one more character. -/
theorem advance_spec (h : Built ac word pats) (hn : n < ac.size) (i : UInt8) :
    ∃ k < ac.size, ac.advance n i = some k ∧
      word k = longest (ac.words word) (word n ++ [i]) := by
  have hlt := h.length_lt hn
  obtain ⟨g, hg, hfollow, hlongest, hor⟩ :=
    follow_spec (i := i) h hn (show (word n).length < ac.size + 1 by omega)
  rw [advance, hfollow, ← hlongest]
  cases hnext : (ac.node g).next i with
  | some k =>
      obtain ⟨hk, hword⟩ := (h.next_iff hg).mp hnext
      refine ⟨k, hk, by simp [hnext], ?_⟩
      rw [← hword, longest_of_mem (IsTrie.mem k hk)]
  | none =>
      have hmiss := h.next_none hg hnext
      obtain rfl : g = root := hor.resolve_right fun hsome => hsome hnext
      rw [h.word_root, List.nil_append] at hmiss ⊢
      exact ⟨root, hg, by simp [hnext], by rw [h.word_root, longest_miss_nil hmiss]⟩

/-! ## The patterns that end at a place -/

/-- What looking at the patterns that end a text makes of the best match. -/
structure Looked (pats : List (List UInt8 × ℤ)) (t : List UInt8) (best best' : Best) : Prop where
  upper : ∀ p ∈ pats.map Prod.fst, p <:+ t → p.length ≤ best'.len
  change : best' = best ∨ ∃ p id, p <:+ t ∧ idOf pats p = some id ∧ best.len < p.length ∧
    best' = { id := id, len := p.length }

theorem better_spec (h : Built ac word pats) (hn : n < ac.size) (best : Best) :
    (ac.better best n = best ∧ (word n ∈ pats.map Prod.fst → (word n).length ≤ best.len)) ∨
    (∃ id, idOf pats (word n) = some id ∧ best.len < (word n).length ∧
      ac.better best n = { id := id, len := (word n).length }) := by
  unfold better
  by_cases hout : (ac.node n).output ≠ 0
  · obtain ⟨id, hid⟩ := Option.isSome_iff_exists.mp ((idOf_isSome _).mpr ((h.output_iff n hn).mp hout))
    have hlen := h.output_len_eq n hn (by rw [hid]; rfl)
    have hoid : (ac.node n).output = id := by rw [h.output_eq n hn, hid]; rfl
    rw [hlen, hoid]
    by_cases hlt : best.len < (word n).length
    · rw [if_pos ⟨hoid ▸ hout, hlt⟩]
      exact Or.inr ⟨id, hid, hlt, rfl⟩
    · rw [if_neg fun hand => hlt hand.2]
      exact Or.inl ⟨rfl, fun _ => Nat.not_lt.mp hlt⟩
  · rw [if_neg fun hand => hout hand.1]
    exact Or.inl ⟨rfl, fun hmem => absurd ((h.output_iff n hn).mpr hmem) hout⟩

variable {t : List UInt8} {best : Best}

theorem Looked.of_shorter {u : List UInt8} {best' : Best} (hu : u <:+ t)
    (hmax : ∀ p ∈ pats.map Prod.fst, p <:+ t → p.length ≤ u.length) (h : Looked pats u best best') :
    Looked pats t best best' := by
  refine ⟨fun p hp hsuffix => ?_, h.change.imp_right ?_⟩
  · exact h.upper p hp (List.suffix_of_suffix_length_le hsuffix hu (hmax p hp hsuffix))
  · rintro ⟨p, id, hsuffix, hrest⟩
    exact ⟨p, id, hsuffix.trans hu, hrest⟩

/-- The rest of the chain finds nothing longer. -/
theorem looked_of_tail {c : UInt8} {best₁ best' : Best}
    (hhead : (best₁ = best ∧ (c :: t ∈ pats.map Prod.fst → (c :: t).length ≤ best.len)) ∨ (∃ id, idOf pats (c :: t) = some id ∧ best.len < (c :: t).length ∧ best₁ = { id := id, len := (c :: t).length }))
    (htail : Looked pats t best₁ best') : Looked pats (c :: t) best best' := by
  rcases hhead with ⟨rfl, hle⟩ | ⟨id, hid, hlt, rfl⟩
  · refine ⟨fun p hp hsuffix => ?_, htail.change.imp_right ?_⟩
    · rcases List.suffix_cons_iff.mp hsuffix with rfl | hsuffix
      · rcases htail.change with rfl | ⟨q, id, -, -, hlt, rfl⟩
        · exact hle hp
        · exact (hle hp).trans hlt.le
      · exact htail.upper p hp hsuffix
    · rintro ⟨p, id, hsuffix, hrest⟩
      exact ⟨p, id, hsuffix.trans (List.suffix_cons c t), hrest⟩
  · have hsame : best' = { id := id, len := (c :: t).length } := by
      rcases htail.change with heq | ⟨p, id', hsuffix, -, hlt', -⟩
      · exact heq
      · have hle := hsuffix.length_le
        simp only [List.length_cons] at hlt'
        omega
    refine ⟨fun p _ hsuffix => ?_, Or.inr ⟨c :: t, id, List.suffix_refl _, hid, hlt, hsame⟩⟩
    rw [hsame]
    exact hsuffix.length_le

/-- **The `out_link` chain** of a node goes through all patterns that end its word. -/
theorem collect_spec (h : Built ac word pats) {budget : ℕ} (hn : n < ac.size) (best : Best)
    (hbudget : (word n).length + 1 < budget) :
    ∃ best', ac.collect budget (some n) best = some best' ∧ Looked pats (word n) best best' := by
  induction budget generalizing n best with
  | zero => omega
  | succ budget ih =>
      obtain ⟨budget, rfl⟩ : ∃ b, budget = b + 1 := ⟨budget - 1, by omega⟩
      have hbetter := better_spec h hn best
      rw [collect]
      by_cases hroot : n = root
      · subst hroot
        rw [h.root_out_link, collect]
        rw [h.word_root] at hbetter ⊢
        refine ⟨_, rfl, fun p hp hsuffix => ?_, ?_⟩
        · rw [List.suffix_nil.mp hsuffix]
          exact Nat.zero_le _
        · rcases hbetter with ⟨hsame, -⟩ | ⟨id, hid, -, -⟩
          · exact Or.inl hsame
          · exact absurd ((idOf_isSome _).mp (by rw [hid]; rfl)) h.nil_not_mem
      · obtain ⟨c, t, hword⟩ := List.exists_cons_of_ne_nil (h.word_ne_nil hn hroot)
        obtain ⟨hout, hlt⟩ := (h.linked n hn hroot).out_link
        rw [hword] at hbetter hout hbudget ⊢
        rw [List.tail_cons] at hout
        rw [List.length_cons] at hbudget
        cases ho : (ac.node n).out_link with
        | none =>
            rw [ho, Option.map_none] at hout
            refine ⟨_, by rw [collect], looked_of_tail hbetter ⟨fun p hp hsuffix => ?_, Or.inl rfl⟩⟩
            exact absurd hsuffix (firstOf_none hout p hp)
        | some o =>
            rw [ho, Option.map_some] at hout
            obtain ⟨-, hsuffix, hmax⟩ := firstOf_some hout
            have hle := hsuffix.length_le
            obtain ⟨best', hcollect, hlooked⟩ := ih (hlt o ho) (ac.better best n) (by omega)
            exact ⟨best', hcollect, looked_of_tail hbetter (hlooked.of_shorter hsuffix hmax)⟩

/-! ## The whole scan -/

/-- A pattern stands in the text and ends after `k` characters. -/
def EndsAt (p t : List UInt8) (k : ℕ) : Prop := k ≤ t.length ∧ p <:+ t.take k

theorem infix_iff_endsAt {p : List UInt8} : p <:+: t ↔ ∃ k, EndsAt p t k := by
  constructor
  · rintro ⟨front, rest, rfl⟩
    refine ⟨(front ++ p).length, by simp, ?_⟩
    rw [List.take_left' rfl]
    exact List.suffix_append front p
  · rintro ⟨k, -, hsuffix⟩
    exact hsuffix.isInfix.trans (List.take_prefix k t).isInfix

theorem endsAt_snoc {p : List UInt8} {c : UInt8} {k : ℕ} :
    EndsAt p (t ++ [c]) k ↔ EndsAt p t k ∨ (k = t.length + 1 ∧ p <:+ t ++ [c]) := by
  unfold EndsAt
  rw [List.length_append, List.length_singleton]
  by_cases hk : k ≤ t.length
  · rw [List.take_append_of_le_length hk]
    constructor
    · exact fun h => Or.inl ⟨hk, h.2⟩
    · rintro (h | h)
      · exact ⟨by omega, h.2⟩
      · omega
  · constructor
    · rintro ⟨hle, hsuffix⟩
      obtain rfl : k = t.length + 1 := by omega
      rw [List.take_of_length_le (by simp)] at hsuffix
      exact Or.inr ⟨rfl, hsuffix⟩
    · rintro (h | ⟨rfl, hsuffix⟩)
      · exact absurd h.1 hk
      · exact ⟨le_rfl, by rwa [List.take_of_length_le (by simp)]⟩

/-- A longest pattern in a text, no other as long ending before it, and the id it was last added
    with. -/
def IsLongest (pats : List (List UInt8 × ℤ)) (t p : List UInt8) (id : ℤ) : Prop :=
  idOf pats p = some id ∧ ∃ k, EndsAt p t k ∧ ∀ q ∈ pats.map Prod.fst, ∀ j, EndsAt q t j →
    q.length < p.length ∨ (q.length = p.length ∧ k ≤ j)

/-- The best match after the text `t`. -/
def BestOf (pats : List (List UInt8 × ℤ)) (t : List UInt8) (best : Best) : Prop :=
  (best = { id := 0, len := 0 } ∧ ∀ p ∈ pats.map Prod.fst, ∀ k, ¬ EndsAt p t k) ∨
    ∃ p, IsLongest pats t p best.id ∧ best.len = p.length

theorem BestOf.upper (h : BestOf pats t best) {q : List UInt8} (hq : q ∈ pats.map Prod.fst) {j : ℕ}
    (hends : EndsAt q t j) : q.length ≤ best.len := by
  rcases h with ⟨-, hnone⟩ | ⟨p, ⟨-, k, -, hall⟩, hlen⟩
  · exact absurd hends (hnone q hq j)
  · rcases hall q hq j hends with hlt | ⟨heq, -⟩ <;> omega

theorem bestOf_nil (hnil : [] ∉ pats.map Prod.fst) : BestOf pats [] { id := 0, len := 0 } := by
  refine Or.inl ⟨rfl, fun p hp k hends => ?_⟩
  obtain ⟨-, hsuffix⟩ := hends
  rw [List.take_nil, List.suffix_nil] at hsuffix
  exact hnil (hsuffix ▸ hp)

theorem BestOf.snoc {c : UInt8} {best' : Best} (hnil : [] ∉ pats.map Prod.fst)
    (h : BestOf pats t best) (hlooked : Looked pats (t ++ [c]) best best') :
    BestOf pats (t ++ [c]) best' := by
  rcases hlooked.change with rfl | ⟨p, id, hsuffix, hid, hlt, rfl⟩
  · rcases h with ⟨rfl, hnone⟩ | ⟨p, ⟨hid, k, hends, hall⟩, hlen⟩
    · refine Or.inl ⟨rfl, fun p hp k hends => ?_⟩
      rcases endsAt_snoc.mp hends with hold | ⟨-, hsuffix⟩
      · exact hnone p hp k hold
      · have hle := hlooked.upper p hp hsuffix
        exact hnil (List.length_eq_zero_iff.mp (Nat.le_zero.mp hle) ▸ hp)
    · refine Or.inr ⟨p, ⟨hid, k, endsAt_snoc.mpr (Or.inl hends), fun q hq j hj => ?_⟩, hlen⟩
      rcases endsAt_snoc.mp hj with hold | ⟨rfl, hsuffix⟩
      · exact hall q hq j hold
      · have hle := hlooked.upper q hq hsuffix
        have hk := hends.1
        omega
  · refine Or.inr ⟨p, ⟨hid, t.length + 1, endsAt_snoc.mpr (Or.inr ⟨rfl, hsuffix⟩), ?_⟩, rfl⟩
    intro q hq j hj
    rcases endsAt_snoc.mp hj with hold | ⟨rfl, hsuffix'⟩
    · have hle := h.upper hq hold
      exact Or.inl (by omega)
    · have hle := hlooked.upper q hq hsuffix'
      dsimp only at hle
      omega

theorem scan_spec (h : Built ac word pats) (rest : List UInt8) (hn : n < ac.size)
    (hword : word n = longest (ac.words word) t) (hbest : BestOf pats t best) :
    ∃ best', ac.scan rest n best = some best' ∧ BestOf pats (t ++ rest) best' := by
  induction rest generalizing n t best with
  | nil => exact ⟨best, rfl, by rwa [List.append_nil]⟩
  | cons c rest ih =>
      obtain ⟨k, hk, hadvance, hk'⟩ := advance_spec h hn c
      rw [hword, ← longest_snoc h.prefixClosed] at hk'
      have hlt := h.length_lt hk
      obtain ⟨best₁, hcollect, hlooked⟩ :=
        collect_spec h hk best (show (word k).length + 1 < ac.size + 1 by omega)
      have hsuffix : word k <:+ t ++ [c] := hk' ▸ longest_suffix _ _
      have hall : Looked pats (t ++ [c]) best best₁ := by
        refine hlooked.of_shorter hsuffix fun p hp hends => ?_
        rw [hk']
        exact (suffix_longest (h.sub p hp) hends).length_le
      obtain ⟨best', hscan, hfinal⟩ := ih hk hk' (hbest.snoc h.nil_not_mem hall)
      refine ⟨best', ?_, by rwa [List.append_assoc] at hfinal⟩
      rw [scan, hadvance, Option.bind_some, hcollect, Option.bind_some, hscan]

theorem match_spec (pats : List (List UInt8 × ℤ)) (text : List UInt8) (hne : ∀ p ∈ pats, p.1 ≠ [])
    (hid : ∀ p ∈ pats, p.2 ≠ 0) (hnul : 0 ∉ text) :
    ∃ ac best, (ofPatterns pats).build = some ac ∧ ac.match_ text = some best.id ∧
      BestOf pats text best := by
  obtain ⟨word, hholds⟩ := ofPatterns_holds pats hne
  obtain ⟨ac, hbuild, h⟩ := hholds.build hne hid
  have hroot : word root = longest (ac.words word) [] := by rw [h.word_root, longest_nil]
  obtain ⟨best, hscan, hbest⟩ :=
    scan_spec h text h.size_pos hroot (bestOf_nil h.nil_not_mem)
  have htake : text.takeWhile (· ≠ 0) = text := by
    refine List.takeWhile_eq_self_iff.mpr fun c hc => ?_
    exact decide_eq_true fun hzero => hnul (hzero ▸ hc)
  rw [List.nil_append] at hbest
  exact ⟨ac, best, hbuild, by rw [match_, htake, hscan]; rfl, hbest⟩

/-- **The automaton finds the longest pattern**: `build` and `match` end, 0 says that no pattern is
    in the text, and any other id is that of a longest pattern, of several the first to end, with
    the id it was last added with. -/
theorem match_longest (pats : List (List UInt8 × ℤ)) (text : List UInt8)
    (hne : ∀ p ∈ pats, p.1 ≠ []) (hid : ∀ p ∈ pats, p.2 ≠ 0) (hnul : 0 ∉ text) :
    ∃ ac id, (ofPatterns pats).build = some ac ∧ ac.match_ text = some id ∧
      (id = 0 ↔ ∀ p ∈ pats, ¬ p.1 <:+: text) ∧
      (id ≠ 0 → ∃ p, IsLongest pats text p id) := by
  obtain ⟨ac, best, hbuild, hmatch, hbest⟩ := match_spec pats text hne hid hnul
  refine ⟨ac, best.id, hbuild, hmatch, ?_, ?_⟩
  · constructor
    · intro hzero p hp hinfix
      rcases hbest with ⟨-, hnone⟩ | ⟨q, ⟨hq, -⟩, -⟩
      · obtain ⟨k, hends⟩ := infix_iff_endsAt.mp hinfix
        exact hnone p.1 (List.mem_map_of_mem hp) k hends
      · exact hid _ (idOf_mem hq) hzero
    · intro hnone
      rcases hbest with ⟨rfl, -⟩ | ⟨q, ⟨hq, k, hends, -⟩, -⟩
      · rfl
      · exact absurd (infix_iff_endsAt.mpr ⟨k, hends⟩) (hnone _ (idOf_mem hq))
  · intro hpos
    rcases hbest with ⟨rfl, -⟩ | ⟨p, hp, -⟩
    · exact absurd rfl hpos
    · exact ⟨p, hp⟩

/-- `ab`, `b` twice and `bcd` against `xabc`. -/
theorem match_longest_ab :
    ∃ ac id, (ofPatterns [([97, 98], 1), ([98], 2), ([98, 99, 100], 3), ([98], 4)]).build = some ac ∧
      ac.match_ [120, 97, 98, 99] = some id ∧
      (id = 0 ↔ ∀ p ∈ [(([97, 98] : List UInt8), (1 : ℤ)), ([98], 2), ([98, 99, 100], 3), ([98], 4)],
        ¬ p.1 <:+: [120, 97, 98, 99]) ∧
      (id ≠ 0 → ∃ p, IsLongest [([97, 98], 1), ([98], 2), ([98, 99, 100], 3), ([98], 4)]
        [120, 97, 98, 99] p id) :=
  match_longest _ _ (by decide) (by decide) (by decide)

end ACAutomaton

end CodeScope.Util
