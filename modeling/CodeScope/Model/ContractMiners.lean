import CodeScope.Model.Plugins
import CodeScope.Verify.ClaimParser

/-! # Two readings of a README

The contract plugin and the claim parser both take contracts from a README. The plugin looks for the
spellings of a list, and each of them may promise the contract where it first stands; the parser
looks for the two words with at most one separator between them, and only the first place counts.
They also differ in the endings that they take for a denial. -/

namespace CodeScope.Model.Plugins

open Text Verify TextSearch

/-- The names that the plugin inserts for one document. -/
def readmeNames (doc : Document) : List Str :=
  (readmeContracts doc.project ⟨[], [], [], [], [doc]⟩).map ContractRow.name

/-- The subjects of the contracts that the parser emits, in lower case. -/
def parsedNames (text sourceKind sourceRef : Str) : List Str :=
  ((Verify.parse text sourceKind sourceRef).filter fun c => c.type = .contractHolds).map
    fun c => lower c.subject

/-- Both miners find the same contracts. -/
def ReadAlike (doc : Document) (sourceKind sourceRef : Str) : Prop :=
  ∀ name, name ∈ readmeNames doc ↔ name ∈ parsedNames doc.content sourceKind sourceRef

/-- The plugin's spellings of a contract. -/
def spellings (kc : KeywordContract) : List Str :=
  contractKeywords.filter fun kw =>
    ! isNegativeForm kw && normalizeContractName kw = lower kc.subject

/-- A spelling stands at a place, in any letter case. -/
def Spelt (text kw : Str) (p : ℕ) : Prop := lower kw <+: (lower text).drop p

/-- The place is the first one. -/
def First (there : ℕ → Prop) (p : ℕ) : Prop := there p ∧ ∀ q < p, ¬ there q

/-- Where the words of a contract first stand, the parser sees a denial exactly when the plugin sees
    one in front of every spelling's first place. -/
def SamePolarity (text : Str) (kc : KeywordContract) : Prop :=
  ∀ p, First (KeywordAt text kc) p →
    (DeniedAt text p ↔
      ∀ kw ∈ spellings kc, ∀ q, First (Spelt text kw) q → denies ((lower text).take q) = true)

/-! ## The plugin -/

theorem textBefore_eq {word : Str} (hword : word ≠ []) (text : Str) :
    textBefore word text = (find word text).map text.take := by
  unfold find
  induction text with
  | nil => rw [textBefore, if_neg hword, firstPlace, Option.map_none]
  | cons c text ih =>
      rw [textBefore, firstPlace]
      by_cases hhere : word <+: c :: text
      · rw [if_pos (List.isPrefixOf_iff_prefix.mpr hhere), if_pos (startsWith_iff.mpr hhere)]
        rfl
      · rw [if_neg (mt List.isPrefixOf_iff_prefix.mp hhere), if_neg (mt startsWith_iff.mp hhere),
          ih, Option.map_map, Option.map_map]
        rfl

theorem contains_eq_find {word : Str} (hword : word ≠ []) (text : Str) :
    contains word text = (find word text).isSome := by
  rw [Bool.eq_iff_iff, contains_iff_infix, ← not_iff_not, Bool.not_eq_true,
    Option.isSome_eq_false_iff, Option.isNone_iff_eq_none, find_eq_none hword,
    List.infix_iff_prefix_suffix]
  constructor
  · exact fun h q hq => h ⟨_, hq, List.drop_suffix q text⟩
  · intro h hinfix
    obtain ⟨rest, hprefix, front, rfl⟩ := hinfix
    exact h front.length (by rwa [List.drop_left])

/-- **A spelling is a promise** when no denial precedes its first place. -/
theorem promises_iff {text kw : Str} (hkw : kw ≠ []) (hpositive : isNegativeForm kw = false) :
    promises text kw = true ↔
      ∃ p, First (Spelt text kw) p ∧ denies ((lower text).take p) = false := by
  have hword : lower kw ≠ [] := by simpa [lower] using hkw
  have hfirst : ∀ p, find (lower kw) (lower text) = some p ↔ First (Spelt text kw) p :=
    fun p => find_eq_some hword
  unfold promises
  rw [hpositive, contains_eq_find hword, textBefore_eq hword]
  cases hfind : find (lower kw) (lower text) with
  | none =>
      refine iff_of_false (by simp) fun h => ?_
      obtain ⟨p, hp, -⟩ := h
      rw [← hfirst, hfind] at hp
      exact absurd hp (by simp)
  | some p =>
      have hp := (hfirst p).mp hfind
      constructor
      · intro h
        exact ⟨p, hp, by simpa using h⟩
      · intro h
        obtain ⟨q, hq, hnot⟩ := h
        obtain rfl : p = q := Option.some.inj (hfind.symm.trans ((hfirst q).mpr hq))
        simpa using hnot

theorem positive_of_promises {text kw : Str} (h : promises text kw = true) :
    isNegativeForm kw = false := by
  unfold promises at h
  simp only [Bool.and_eq_true, Bool.not_eq_true'] at h
  exact h.1.1

theorem mem_readmeNames {doc : Document} {name : Str} :
    name ∈ readmeNames doc ↔ ∃ kw ∈ contractKeywords,
      promises doc.content kw = true ∧ normalizeContractName kw = name := by
  simp [readmeNames, readmeContracts, and_assoc]

theorem exists_contract : ∀ kw ∈ contractKeywords, isNegativeForm kw = false →
    ∃ kc ∈ kKeywords, kw ∈ spellings kc := by
  have hall : contractKeywords.all (fun kw => isNegativeForm kw ||
      (kKeywords.map fun kc => spellings kc).any fun names => kw ∈ names) = true := by
    decide +kernel
  intro kw hkw hpositive
  have h := List.all_eq_true.mp hall kw hkw
  rw [hpositive, Bool.false_or, List.any_map, List.any_eq_true] at h
  obtain ⟨kc, hkc, hmem⟩ := h
  exact ⟨kc, hkc, of_decide_eq_true hmem⟩

theorem mem_spellings {kc : KeywordContract} {kw : Str} :
    kw ∈ spellings kc ↔ kw ∈ contractKeywords ∧ isNegativeForm kw = false ∧
      normalizeContractName kw = lower kc.subject := by
  simp [spellings]

theorem subject_mem_readmeNames {doc : Document} {kc : KeywordContract} :
    lower kc.subject ∈ readmeNames doc ↔ ∃ kw ∈ spellings kc, promises doc.content kw = true := by
  rw [mem_readmeNames]
  constructor
  · intro h
    obtain ⟨kw, hkw, hpromise, hname⟩ := h
    exact ⟨kw, mem_spellings.mpr ⟨hkw, positive_of_promises hpromise, hname⟩, hpromise⟩
  · intro h
    obtain ⟨kw, hkw, hpromise⟩ := h
    obtain ⟨hmem, -, hname⟩ := mem_spellings.mp hkw
    exact ⟨kw, hmem, hpromise, hname⟩

/-! ## The parser -/

theorem mem_parsedNames {text sourceKind sourceRef name : Str} :
    name ∈ parsedNames text sourceKind sourceRef ↔
      ∃ kc ∈ kKeywords, keywordClaim text kc = some kc.claim ∧ lower kc.subject = name := by
  unfold parsedNames
  rw [List.mem_map]
  constructor
  · intro h
    obtain ⟨pc, hpc, rfl⟩ := h
    obtain ⟨hmem, htype⟩ := List.mem_filter.mp hpc
    obtain ⟨c, hc, rfl⟩ := mem_parse.mp hmem
    have hholds : c.type = .contractHolds := of_decide_eq_true htype
    rcases mem_claimsOf.mp hc with
      ⟨m, _, h⟩ | ⟨m, _, h⟩ | ⟨m, _, h⟩ | ⟨m, _, h⟩ | ⟨kc, hkc, h⟩ | ⟨m, _, h⟩
    · exact absurd ((verbClaim_eq_some h).1.symm.trans hholds) (by decide)
    · exact absurd ((verbClaim_eq_some h).1.symm.trans hholds) (by decide)
    · exact absurd ((hasPhraseClaim_eq_some (hasClaim_eq_some.mp h).2).1.symm.trans hholds)
        (by decide)
    · exact absurd ((shouldClaim_type h).symm.trans hholds) (by decide)
    · obtain ⟨rfl, -⟩ := keywordClaim_eq_some.mp h
      exact ⟨kc, hkc, h, rfl⟩
    · exact absurd ((arrowClaim_type h).symm.trans hholds) (by decide)
  · intro h
    obtain ⟨kc, hkc, hclaim, rfl⟩ := h
    refine ⟨⟨kc.claim, sourceKind, sourceRef⟩, List.mem_filter.mpr ⟨?_, rfl⟩, rfl⟩
    exact mem_parse.mpr ⟨_, (claim_mem_claimsOf hkc).mpr hclaim, rfl⟩

theorem subject_mem_parsedNames {text sourceKind sourceRef : Str} {kc : KeywordContract}
    (hkc : kc ∈ kKeywords) :
    lower kc.subject ∈ parsedNames text sourceKind sourceRef ↔
      ∃ p, First (KeywordAt text kc) p ∧ ¬ DeniedAt text p := by
  have hnodup : (kKeywords.map fun kc => lower kc.subject).Nodup := by decide +kernel
  rw [mem_parsedNames]
  constructor
  · intro h
    obtain ⟨kc', hkc', hclaim, hname⟩ := h
    obtain rfl := List.inj_on_of_nodup_map hnodup hkc' hkc hname
    obtain ⟨-, p, hat, hfirst, hnot⟩ := keywordClaim_eq_some.mp hclaim
    exact ⟨p, ⟨hat, hfirst⟩, hnot⟩
  · intro h
    obtain ⟨p, hp, hnot⟩ := h
    exact ⟨kc, hkc, keywordClaim_eq_some.mpr ⟨rfl, p, hp.1, hp.2, hnot⟩, rfl⟩

/-! ## Spellings and words -/

section Words

open Regex

/-- Two words with at most one separator between them are found. -/
theorem keywordAt_pair {text first sep second subject : Str} {p : ℕ} (hfirst : first ≠ [])
    (hsep : sep = [] ∨ sep = ['-'] ∨ sep = [' '])
    (h : lower first ++ (sep ++ lower second) <+: (lower text).drop p) :
    KeywordAt text ⟨keywordPair first second, subject⟩ p := by
  obtain ⟨tail, htail⟩ := h
  have hrest : lower (text.drop p) = lower first ++ (sep ++ (lower second ++ tail)) := by
    rw [lower, List.map_drop, ← lower, ← htail, List.append_assoc, List.append_assoc]
  have hlength : p ≤ text.length := by
    by_contra hlt
    rw [List.drop_eq_nil_of_le (by omega)] at hrest
    exact hfirst (List.map_eq_nil_iff.mp (List.append_eq_nil_iff.mp hrest.symm).1)
  obtain ⟨w, more, htext, hw, hmore⟩ := List.map_eq_append_iff.mp hrest
  have hwords : ∀ {a b : Str}, lower a = lower b → a.length = b.length := by
    intro a b hab
    have := congrArg List.length hab
    rwa [lower, lower, List.length_map, List.length_map] at this
  -- behind the first word
  have hbehind : ((cursorAt text p).skip first.length).rest = more := by
    show (text.drop p).drop first.length = more
    rw [htext, ← hwords hw, List.drop_left]
  -- the second word
  have hsecond : ∀ (s : Cursor), lower s.rest = lower second ++ tail →
      ∃ t, t ∈ run (lit second) s := by
    intro s hs
    obtain ⟨v, last, hrest, hv, -⟩ := List.map_eq_append_iff.mp hs
    exact ⟨_, mem_run_lit.mpr ⟨startsWith_sameLetter.mpr ⟨v, last, hrest, hwords hv, hv⟩, rfl⟩⟩
  have hmiddle : ∃ u ∈ run (.opt (.char fun c => c = '-' || isCSpace c))
      ((cursorAt text p).skip first.length), lower u.rest = lower second ++ tail := by
    rcases hsep with rfl | hsep
    · exact ⟨_, List.mem_append_right _ (List.mem_singleton_self _), by rw [hbehind]; exact hmore⟩
    · obtain ⟨c, hc, hcs⟩ : ∃ c, sep = [c] ∧ (c = '-' ∨ c = ' ') := by
        rcases hsep with rfl | rfl
        · exact ⟨_, rfl, Or.inl rfl⟩
        · exact ⟨_, rfl, Or.inr rfl⟩
      rw [hc, List.singleton_append] at hmore
      obtain ⟨d, last, hd, hdc, hlast⟩ := List.map_eq_cons_iff.mp hmore
      obtain rfl : d = c := SqlText.eq_of_toLower_eq (by rcases hcs with rfl | rfl <;> rfl) hdc
      refine ⟨((cursorAt text p).skip first.length).skip 1, List.mem_append_left _ ?_, ?_⟩
      · rw [run, hbehind, hd, if_pos]
        · exact List.mem_singleton_self _
        · rcases hcs with rfl | rfl <;> rfl
      · show lower (((cursorAt text p).skip first.length).rest.drop 1) = _
        rw [hbehind, hd]
        exact hlast
  obtain ⟨u, hu, hurest⟩ := hmiddle
  obtain ⟨t, ht⟩ := hsecond u hurest
  have hhead : (cursorAt text p).skip first.length ∈ run (lit first) (cursorAt text p) :=
    mem_run_lit.mpr ⟨startsWith_sameLetter.mpr ⟨w, more, htext, hwords hw, hw⟩, rfl⟩
  exact ⟨hlength, t, mem_run_seq.mpr ⟨_, hhead, mem_run_seq.mpr ⟨u, hu, ht⟩⟩⟩

/-- The words of each contract, in the order of the list. -/
theorem spelling_words : ∀ kc ∈ kKeywords, ∃ first second, first ≠ [] ∧
    kc.pattern = keywordPair first second ∧ ∀ kw ∈ spellings kc, kw ≠ [] ∧
      ∃ sep ∈ [[], ['-'], [' ']], lower kw = lower first ++ (sep ++ lower second) := by
  have hcheck : ∀ {names : List Str} {first second : Str},
      (names.all fun kw => kw ≠ [] ∧ [[], ['-'], [' ']].any fun sep =>
        lower kw = lower first ++ (sep ++ lower second)) = true →
      ∀ kw ∈ names, kw ≠ [] ∧
        ∃ sep ∈ [[], ['-'], [' ']], lower kw = lower first ++ (sep ++ lower second) := by
    intro names first second h kw hkw
    have hkw := of_decide_eq_true (List.all_eq_true.mp h kw hkw)
    obtain ⟨sep, hsep, hword⟩ := List.any_eq_true.mp hkw.2
    exact ⟨hkw.1, sep, hsep, of_decide_eq_true hword⟩
  intro kc hkc
  simp only [kKeywords, List.mem_cons, List.not_mem_nil, or_false] at hkc
  rcases hkc with rfl | rfl | rfl | rfl
  · exact ⟨_, _, by decide, rfl, hcheck (by decide +kernel)⟩
  · exact ⟨_, _, by decide, rfl, hcheck (by decide +kernel)⟩
  · exact ⟨_, _, by decide, rfl, hcheck (by decide +kernel)⟩
  · exact ⟨_, _, by decide, rfl, hcheck (by decide +kernel)⟩

/-- **Where a spelling stands** the parser finds the contract. -/
theorem keywordAt_of_spelt {kc : KeywordContract} (hkc : kc ∈ kKeywords) {text kw : Str}
    (hkw : kw ∈ spellings kc) {p : ℕ} (h : Spelt text kw p) : KeywordAt text kc p := by
  obtain ⟨first, second, hfirst, hpattern, hwords⟩ := spelling_words kc hkc
  obtain ⟨-, sep, hsep, hword⟩ := hwords kw hkw
  rw [Spelt, hword] at h
  obtain ⟨hlength, hmatch⟩ : KeywordAt text ⟨keywordPair first second, kc.subject⟩ p :=
    keywordAt_pair hfirst (by simpa using hsep) h
  exact ⟨hlength, hpattern ▸ hmatch⟩

end Words

/-! ## When they agree -/

theorem first_of_exists {there : ℕ → Prop} (h : ∃ p, there p) : ∃ p, First there p := by
  classical
  exact ⟨Nat.find h, Nat.find_spec h, fun q hq => Nat.find_min h hq⟩

theorem First.unique {there : ℕ → Prop} {p q : ℕ} (hp : First there p) (hq : First there q) :
    p = q := by
  rcases Nat.lt_trichotomy p q with hlt | heq | hgt
  · exact absurd hp.1 (hq.2 p hlt)
  · exact heq
  · exact absurd hq.1 (hp.2 q hgt)

/-- **The miners read a README alike** exactly when they see the same polarity of each contract. -/
theorem contract_miners_agree_iff (doc : Document) (sourceKind sourceRef : Str) :
    ReadAlike doc sourceKind sourceRef ↔ ∀ kc ∈ kKeywords, SamePolarity doc.content kc := by
  -- the names of both are those of the four contracts
  have hcontracts : ReadAlike doc sourceKind sourceRef ↔ ∀ kc ∈ kKeywords,
      (lower kc.subject ∈ readmeNames doc ↔
        lower kc.subject ∈ parsedNames doc.content sourceKind sourceRef) := by
    refine ⟨fun h kc _ => h _, fun h name => ?_⟩
    constructor
    · intro hname
      obtain ⟨kw, hkw, hpromise, rfl⟩ := mem_readmeNames.mp hname
      obtain ⟨kc, hkc, hmem⟩ := exists_contract kw hkw (positive_of_promises hpromise)
      rw [(mem_spellings.mp hmem).2.2] at hname ⊢
      exact (h kc hkc).mp hname
    · intro hname
      obtain ⟨kc, hkc, -, rfl⟩ := mem_parsedNames.mp hname
      exact (h kc hkc).mpr hname
  rw [hcontracts]
  refine forall₂_congr fun kc hkc => ?_
  have hpromise : ∀ kw ∈ spellings kc, (promises doc.content kw = true ↔
      ∃ p, First (Spelt doc.content kw) p ∧ denies ((lower doc.content).take p) = false) := by
    intro kw hkw
    obtain ⟨_, _, -, -, hwords⟩ := spelling_words kc hkc
    exact promises_iff (hwords kw hkw).1 (mem_spellings.mp hkw).2.1
  rw [subject_mem_readmeNames, subject_mem_parsedNames hkc]
  constructor
  · intro h p hp
    constructor
    · intro hdenied kw hkw q hq
      by_contra hheld
      have hkept := (hpromise kw hkw).mpr ⟨q, hq, by simpa using hheld⟩
      obtain ⟨p', hp', hnot⟩ := h.mp ⟨kw, hkw, hkept⟩
      obtain rfl := hp.unique hp'
      exact hnot hdenied
    · intro hall
      by_contra hnot
      obtain ⟨kw, hkw, hkept⟩ := h.mpr ⟨p, hp, hnot⟩
      obtain ⟨q, hq, hheld⟩ := (hpromise kw hkw).mp hkept
      rw [hall kw hkw q hq] at hheld
      exact absurd hheld (by decide)
  · intro h
    constructor
    · intro hkept
      obtain ⟨kw, hkw, hkept⟩ := hkept
      obtain ⟨q, hq, hheld⟩ := (hpromise kw hkw).mp hkept
      obtain ⟨p, hp⟩ := first_of_exists ⟨q, keywordAt_of_spelt hkc hkw hq.1⟩
      refine ⟨p, hp, fun hdenied => ?_⟩
      rw [(h p hp).mp hdenied kw hkw q hq] at hheld
      exact absurd hheld (by decide)
    · intro hkept
      obtain ⟨p, hp, hnot⟩ := hkept
      by_contra hnone
      refine hnot ((h p hp).mpr fun kw hkw q hq => ?_)
      by_contra hheld
      exact hnone ⟨kw, hkw, (hpromise kw hkw).mpr ⟨q, hq, by simpa using hheld⟩⟩

/-- A `README` whose line breaks behind the `not`. -/
def brokenLine : Document := ⟨1, 0, str "README.md", str "This is not\nthread-safe."⟩

/-- **The plugin promises what the parser takes for a denial.** -/
theorem broken_line_promised :
    ¬ ∀ doc sourceKind sourceRef, ReadAlike doc sourceKind sourceRef := by
  intro h
  have hplugin : readmeNames brokenLine = [str "threadsafe"] := by decide +kernel
  have hparser : parsedNames brokenLine.content (str "readme") [] = [] := by decide +kernel
  have hname := (h brokenLine (str "readme") [] (str "threadsafe")).mp
    (hplugin ▸ List.mem_singleton_self _)
  rw [hparser] at hname
  exact absurd hname List.not_mem_nil

end CodeScope.Model.Plugins
