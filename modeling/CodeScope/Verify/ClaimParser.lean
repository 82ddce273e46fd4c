import CodeScope.Library.Regex
import CodeScope.Verify.LanguageClaims
import CodeScope.Verify.Verifiers

/-! # Claims from free text

`ClaimParser::parse`: every pattern scans the text for itself. An error thrown by the expression
library ends one pattern in the source; it is left out here. Positions count characters, which
makes no difference to expressions over ASCII characters. -/

namespace CodeScope.Verify

open Text TextSearch
open Regex (Pattern Match allMatches search lit cursorAt run)

/-! ## Subjects -/

def kBoundaries : List Str :=
  [str " and ", str " is ", str " but ", str " or ", str " are ", str " was ", str " were ",
    str " in ", str ".", str ",", str ";", str "!", str "\n"]

/-- A space or a tab. -/
def isGap (c : Char) : Bool := c = ' ' || c = '\t'

def truncateAtBoundary (raw : Str) : Str :=
  let cut := kBoundaries.foldl
    (fun cut b => match find b raw with | some pos => min cut pos | none => cut) raw.length
  (raw.take cut).rdropWhile isGap

def kGenericNouns : List Str :=
  [str "class", str "function", str "method", str "module", str "struct", str "interface",
    str "type", str "component", str "service", str "endpoint", str "route", str "handler",
    str "capability", str "feature", str "table", str "column", str "field", str "variable",
    str "constant", str "file", str "package", str "library", str "dependency", str "test",
    str "tests", str "support", str "handler", str "controller", str "manager"]

def stripTrailingNoun (raw : Str) : Str :=
  let trimmed := raw.rdropWhile isGap
  let last := trimmed.rtakeWhile fun c => !isGap c
  if trimmed = [] then raw
  else if lower last ∈ kGenericNouns then
    (trimmed.rdropWhile fun c => !isGap c).rdropWhile isGap
  else raw

/-- The loop of `toPascalCase`. -/
def pascalFrom : Bool → Str → Str
  | _, [] => []
  | capitalizeNext, c :: rest =>
      if isCSpace c then pascalFrom true rest
      else (if capitalizeNext then c.toUpper else c) :: pascalFrom false rest

def toPascalCase (s : Str) : Str := pascalFrom true s

def layerWhitelist : List Str :=
  [str "controller", str "service", str "repository", str "view", str "model", str "api",
    str "domain", str "data", str "presentation", str "business", str "infrastructure",
    str "adapter", str "usecase", str "entity", str "handler", str "router", str "manager",
    str "factory", str "provider", str "dao", str "store", str "viewmodel", str "presenter",
    str "interactor", str "facade", str "proxy", str "command", str "query", str "endpoint",
    str "resource"]

def isLayerName (token : Str) : Bool := lower token ∈ layerWhitelist

/-! ## Expressions -/

def isLetter (c : Char) : Bool := c.isAlpha

/-- `[A-Za-z0-9_\- ]` -/
def isPhraseChar (c : Char) : Bool := c.isAlphanum || c = '_' || c = '-' || c = ' '

/-- `[[:space:]]+` -/
def kSpaces : Pattern := .many isCSpace 1 none

/-- `([A-Za-z][A-Za-z0-9_\- ]{1,50})` -/
def kPhrase : Pattern := .group (.seq (.char isLetter) (.many isPhraseChar 1 (some 50)))

/-- `(\bnot|isn't|is not|never|n't)\s*$` -/
def kNegation : Pattern :=
  .seq
    (.group (.alt (.seq .boundary (lit (str "not"))) (.alt (lit (str "isn't"))
      (.alt (lit (str "is not")) (.alt (lit (str "never")) (lit (str "n't")))))))
    (.seq (.many isCSpace 0 none) .stop)

/-- The text in front of a match ends in a negation. -/
def negated (before : Str) : Bool := (search kNegation before).isSome

/-- `supports?` or `implements?` with what follows. -/
def verbPhrase (verb : Str) : Pattern :=
  .seq (lit verb) (.seq (.opt (lit (str "s"))) (.seq kSpaces kPhrase))

def kSupports : Pattern := verbPhrase (str "support")

def kImplements : Pattern := verbPhrase (str "implement")

def kHas : Pattern :=
  .seq .boundary (.seq
    (.alt (lit (str "has")) (.seq (lit (str "contain")) (.opt (lit (str "s")))))
    (.seq kSpaces (.seq
      (.opt (.alt (.seq (lit (str "a")) (.seq (.opt (lit (str "n"))) kSpaces))
        (.seq (lit (str "the")) kSpaces)))
      kPhrase)))

def kShould : Pattern :=
  .seq .boundary (.seq
    (.group (.seq (.char fun c => isLetter c || c = '_')
      (.many Regex.isWordChar 0 (some 60))))
    (.seq kSpaces (.seq (lit (str "should")) (.seq kSpaces
      (.group (.seq (.char isLetter)
        (.many (fun c => isPhraseChar c || c = ',') 0 (some 80))))))))

def kArrow : Pattern :=
  let word : Pattern := .group (.many isLetter 1 none)
  let arrow : Pattern :=
    .seq (.many isCSpace 0 none) (.seq (lit (str "->")) (.many isCSpace 0 none))
  .seq word (.seq arrow (.seq word (.seq arrow word)))

/-- `first[-[:space:]]?second` -/
def keywordPair (first second : Str) : Pattern :=
  .seq (lit first) (.seq (.opt (.char fun c => c = '-' || isCSpace c)) (lit second))

structure KeywordContract where
  pattern : Pattern
  subject : Str

def kKeywords : List KeywordContract :=
  [⟨keywordPair (str "thread") (str "safe"), str "ThreadSafe"⟩,
    ⟨keywordPair (str "memory") (str "safe"), str "MemorySafe"⟩,
    ⟨keywordPair (str "zero") (str "copy"), str "ZeroCopy"⟩,
    ⟨keywordPair (str "lock") (str "free"), str "LockFree"⟩]

/-! ## Claims of a match -/

def capability (predicate subject : Str) : Option Claim :=
  if subject = [] then none
  else some ⟨.capabilityExists, subject, predicate, [], str "repository"⟩

/-- The claim of one match of `supports` or `implements`. -/
def verbClaim (predicate : Str) (m : Match) : Option Claim :=
  capability predicate (toPascalCase (truncateAtBoundary (m.groups.headD [])))

def supportsClaim (m : Match) : Option Claim := verbClaim (str "supported_by") m

def implementsClaim (m : Match) : Option Claim := verbClaim (str "implemented_by") m

/-- The claim of the phrase behind `has`, unless it begins with a denial. -/
def hasPhraseClaim (m : Match) : Option Claim :=
  let raw := m.groups.headD []
  if [str "no ", str "not ", str "never "].any fun w => w.isPrefixOf (lower raw) then none
  else capability (str "has") (toPascalCase (stripTrailingNoun (truncateAtBoundary raw)))

def hasClaim (text : Str) (m : Match) : Option Claim :=
  if negated (text.take m.start) then none else hasPhraseClaim m

/-- `should`: the subject stays as it is written. -/
def shouldClaim (text : Str) (m : Match) : Option Claim :=
  let subject := m.groups.headD []
  let behavior := truncateAtBoundary (m.groups.getD 1 [])
  if negated (text.take m.start) then none
  else if [str "not ", str "never ", str "n't"].any fun w => w.isPrefixOf (lower behavior) then none
  else if subject = [] ∨ behavior = [] then none
  else some ⟨.functionImplements, subject, str "should", behavior, str "repository"⟩

def KeywordContract.claim (kc : KeywordContract) : Claim :=
  ⟨.contractHolds, kc.subject, str "holds", [], str "repository"⟩

/-- A keyword is looked for once: its first occurrence decides. -/
def keywordClaim (text : Str) (kc : KeywordContract) : Option Claim :=
  (search kc.pattern text).bind fun m =>
    if negated (text.take m.start) then none else some kc.claim

def arrowClaim (m : Match) : Option Claim :=
  let a := m.groups.headD []
  let b := m.groups.getD 1 []
  let c := m.groups.getD 2 []
  if isLayerName a && isLayerName b && isLayerName c then
    some ⟨.architectureFollows, a, str "flows_to", b, c⟩
  else none

/-- A claim with where it was found. -/
structure ParsedClaim extends Claim where
  sourceKind : Str
  sourceRef : Str
deriving DecidableEq

/-- The claims of a text, in the order of the patterns. -/
def claimsOf (text : Str) : List Claim :=
  (allMatches kSupports text).filterMap supportsClaim ++
    (allMatches kImplements text).filterMap implementsClaim ++
    (allMatches kHas text).filterMap (hasClaim text) ++
    (allMatches kShould text).filterMap (shouldClaim text) ++
    kKeywords.filterMap (keywordClaim text) ++
    (allMatches kArrow text).filterMap arrowClaim

/-- `ClaimParser::parse` -/
def parse (text sourceKind sourceRef : Str) : List ParsedClaim :=
  if text = [] then []
  else (claimsOf text).map fun c => ⟨c, sourceKind, sourceRef⟩

/-! ## Negations -/

/-- `isn't`, `is not`, `never` or `n't`. -/
def negationWords : List Str := [str "isn't", str "is not", str "never", str "n't"]

/-- A text ends in a negation with spaces behind it: in one of the words, or in a `not` that is not
    the end of a longer word. -/
def EndsInNegation (before : Str) : Prop :=
  ∃ head word space, before = head ++ word ++ space ∧ (∀ c ∈ space, isCSpace c = true) ∧
    (lower word ∈ negationWords ∨
      lower word = str "not" ∧ head.getLast?.any Regex.isWordChar = false)

/-- A negation at a place, with spaces behind it. -/
def NegationAt (before : Str) (p : ℕ) : Prop :=
  ∃ word space, before.drop p = word ++ space ∧ (∀ c ∈ space, isCSpace c = true) ∧
    (lower word ∈ negationWords ∨
      lower word = str "not" ∧ (before.take p).getLast?.any Regex.isWordChar = false)

variable {before : Str}

theorem endsInNegation_iff : EndsInNegation before ↔ ∃ p ≤ before.length, NegationAt before p := by
  constructor
  · rintro ⟨head, word, space, rfl, hspace, hword⟩
    refine ⟨head.length, by simp, word, space, ?_, hspace, ?_⟩
    · rw [List.append_assoc, List.drop_left]
    · rwa [List.append_assoc, List.take_left]
  · rintro ⟨p, -, word, space, hdrop, hspace, hword⟩
    refine ⟨before.take p, word, space, ?_, hspace, hword⟩
    rw [List.append_assoc, ← hdrop, List.take_append_drop]

/-- A word at a place with spaces behind it. -/
theorem exists_lit_space {w : Str} {p : ℕ} :
    (∃ u ∈ run (lit w) (cursorAt before p), ∀ c ∈ u.rest, isCSpace c = true) ↔
      ∃ word space, before.drop p = word ++ space ∧ (∀ c ∈ space, isCSpace c = true) ∧
        lower word = lower w := by
  simp only [Regex.mem_run_lit, Regex.startsWith_sameLetter]
  constructor
  · rintro ⟨u, ⟨⟨word, tail, htext, hlength, hword⟩, rfl⟩, hspace⟩
    have htext' : before.drop p = word ++ tail := htext
    have hrest : ((cursorAt before p).skip w.length).rest = tail := by
      simp [Regex.Cursor.skip, cursorAt, htext', ← hlength]
    exact ⟨word, tail, htext', hrest ▸ hspace, hword⟩
  · rintro ⟨word, space, htext, hspace, hword⟩
    have hlength : word.length = w.length := by
      have := congrArg List.length hword
      rwa [lower, lower, List.length_map, List.length_map] at this
    refine ⟨_, ⟨⟨word, space, htext, hlength, hword⟩, rfl⟩, ?_⟩
    have hrest : ((cursorAt before p).skip w.length).rest = space := by
      simp [Regex.Cursor.skip, cursorAt, htext, ← hlength]
    rwa [hrest]

theorem isWordChar_of_toLower {c : Char} (h : c.toLower = 'n') : Regex.isWordChar c = true := by
  have hletter : c.isAlpha = true := by
    rw [← Char.isAlpha_toLower_eq_isAlpha, h]
    decide
  simp [Regex.isWordChar, Char.isAlphanum, hletter]

/-- The same behind a word boundary: what stands in front is not part of a word. -/
theorem exists_boundary_not {p : ℕ} :
    (∃ u ∈ run (.seq .boundary (lit (str "not"))) (cursorAt before p),
        ∀ c ∈ u.rest, isCSpace c = true) ↔
      (∃ u ∈ run (lit (str "not")) (cursorAt before p), ∀ c ∈ u.rest, isCSpace c = true) ∧
        (before.take p).getLast?.any Regex.isWordChar = false := by
  have hleft : (cursorAt before p).before.head?.any Regex.isWordChar =
      (before.take p).getLast?.any Regex.isWordChar := by
    rw [cursorAt, List.head?_reverse]
  -- where the word stands, a letter is in front of the matcher
  have hright : (∃ u ∈ run (lit (str "not")) (cursorAt before p),
      ∀ c ∈ u.rest, isCSpace c = true) →
        (cursorAt before p).rest.head?.any Regex.isWordChar = true := by
    intro h
    obtain ⟨word, space, htext, -, hword⟩ := exists_lit_space.mp h
    cases word with
    | nil => exact absurd hword (by decide)
    | cons c word =>
        have hc : c.toLower = 'n' := (List.cons.inj hword).1
        have hrest : (cursorAt before p).rest = c :: (word ++ space) := htext
        rw [hrest]
        exact isWordChar_of_toLower hc
  simp only [Regex.mem_run_seq]
  constructor
  · rintro ⟨u, ⟨v, hv, hu⟩, hspace⟩
    rw [run] at hv
    split_ifs at hv with hboundary
    · obtain rfl := List.mem_singleton.mp hv
      rw [hright ⟨u, hu, hspace⟩, hleft] at hboundary
      exact ⟨⟨u, hu, hspace⟩, by simpa using hboundary⟩
    · exact absurd hv List.not_mem_nil
  · rintro ⟨⟨u, hu, hspace⟩, hnot⟩
    refine ⟨u, ⟨cursorAt before p, ?_, hu⟩, hspace⟩
    rw [run, hright ⟨u, hu, hspace⟩, hleft, hnot]
    exact List.mem_singleton_self _

/-- **The expression finds the negations in front of a match, and nothing else.** -/
theorem negated_iff : negated before = true ↔ EndsInNegation before := by
  rw [negated, Regex.isSome_search, endsInNegation_iff]
  refine exists_congr fun p => and_congr_right fun _ => ?_
  have hsplit : (∃ t, t ∈ run kNegation (cursorAt before p)) ↔
      ∃ u ∈ run (.alt (.seq .boundary (lit (str "not"))) (.alt (lit (str "isn't"))
        (.alt (lit (str "is not")) (.alt (lit (str "never")) (lit (str "n't"))))))
        (cursorAt before p), ∀ c ∈ u.rest, isCSpace c = true := by
    rw [← Regex.exists_run_group (by intros; rfl)]
    simp only [kNegation, Regex.mem_run_seq, ← Regex.exists_run_many_stop]
    constructor
    · rintro ⟨t, u, hu, ht⟩
      exact ⟨u, hu, t, ht⟩
    · rintro ⟨u, hu, t, ht⟩
      exact ⟨t, u, hu, ht⟩
  have halt : ∀ {a b : Pattern} {q : Regex.Cursor → Prop} {s : Regex.Cursor},
      (∃ u ∈ run (.alt a b) s, q u) ↔ (∃ u ∈ run a s, q u) ∨ ∃ u ∈ run b s, q u := by
    intro a b q s
    simp only [Regex.mem_run_alt, or_and_right, exists_or]
  rw [hsplit, halt, halt, halt, halt, exists_boundary_not]
  simp only [exists_lit_space]
  constructor
  · rintro (⟨⟨word, space, htext, hspace, hword⟩, hnot⟩ | h)
    · exact ⟨word, space, htext, hspace, .inr ⟨hword, hnot⟩⟩
    · rcases h with h | h | h | h <;> obtain ⟨word, space, htext, hspace, hword⟩ := h
      all_goals exact ⟨word, space, htext, hspace, .inl (by rw [hword]; decide)⟩
  · rintro ⟨word, space, htext, hspace, hword | ⟨hword, hnot⟩⟩
    · refine Or.inr ?_
      simp only [negationWords, List.mem_cons, List.not_mem_nil, or_false] at hword
      rcases hword with h | h | h | h
      · exact .inl ⟨word, space, htext, hspace, h⟩
      · exact .inr (.inl ⟨word, space, htext, hspace, h⟩)
      · exact .inr (.inr (.inl ⟨word, space, htext, hspace, h⟩))
      · exact .inr (.inr (.inr ⟨word, space, htext, hspace, h⟩))
    · exact .inl ⟨⟨word, space, htext, hspace, hword⟩, hnot⟩

/-! ## Polarity -/

section Polarity

variable (text : Str)

/-- A keyword stands at a place. -/
def KeywordAt (kc : KeywordContract) (p : ℕ) : Prop :=
  p ≤ text.length ∧ ∃ t, t ∈ run kc.pattern (cursorAt text p)

/-- The occurrences that a claim rests on, whatever stands in front of them. -/
inductive SupportedAt : Claim → ℕ → Prop where
  | supports {m : Match} {c : Claim} : m ∈ allMatches kSupports text → supportsClaim m = some c →
      SupportedAt c m.start
  | implements {m : Match} {c : Claim} : m ∈ allMatches kImplements text →
      implementsClaim m = some c → SupportedAt c m.start
  | has {m : Match} {c : Claim} : m ∈ allMatches kHas text → hasPhraseClaim m = some c →
      SupportedAt c m.start
  | keyword {kc : KeywordContract} {p : ℕ} : kc ∈ kKeywords → KeywordAt text kc p →
      SupportedAt kc.claim p

/-- The text in front of a place denies what follows. -/
def DeniedAt (p : ℕ) : Prop := EndsInNegation (text.take p)

/-- No denial becomes a promise, and no keyword that is not denied is passed over. -/
structure PolarityKept (claims : List ParsedClaim) : Prop where
  positive : ∀ c ∈ claims, c.type = .capabilityExists ∨ c.type = .contractHolds →
    ∃ p, SupportedAt text c.toClaim p ∧ ¬ DeniedAt text p
  keywords : ∀ kc ∈ kKeywords, (∃ c ∈ claims, c.toClaim = kc.claim) ↔
    ∃ p, KeywordAt text kc p ∧ ¬ DeniedAt text p

/-- What a denied phrase names is also named by one that is not denied. -/
def NamedElsewhere (pattern : Pattern) (claim : Match → Option Claim) : Prop :=
  ∀ m ∈ allMatches pattern text, ∀ c, claim m = some c → DeniedAt text m.start →
    ∃ m' ∈ allMatches pattern text, claim m' = some c ∧ ¬ DeniedAt text m'.start

/-- The texts whose denials do no harm. -/
structure DenialsHarmless : Prop where
  supports : NamedElsewhere text kSupports supportsClaim
  implements : NamedElsewhere text kImplements implementsClaim
  /-- a keyword that is denied where it stands first is denied throughout -/
  keywords : ∀ kc ∈ kKeywords, ∀ p, KeywordAt text kc p → (∀ q < p, ¬ KeywordAt text kc q) →
    DeniedAt text p → ∀ q, KeywordAt text kc q → DeniedAt text q

end Polarity

/-! ## Which pattern a claim is from -/

section Origin

variable {text : Str} {m : Match} {c : Claim}

theorem capability_eq_some {predicate subject : Str}
    (h : capability predicate subject = some c) :
    c.type = .capabilityExists ∧ c.predicate = predicate := by
  unfold capability at h
  split_ifs at h with hempty
  obtain rfl := Option.some.inj h
  exact ⟨rfl, rfl⟩

theorem verbClaim_eq_some {predicate : Str} (h : verbClaim predicate m = some c) :
    c.type = .capabilityExists ∧ c.predicate = predicate := capability_eq_some h

theorem hasPhraseClaim_eq_some (h : hasPhraseClaim m = some c) :
    c.type = .capabilityExists ∧ c.predicate = str "has" := by
  simp only [hasPhraseClaim] at h
  split_ifs at h with hdenied
  exact capability_eq_some h

theorem hasClaim_eq_some :
    hasClaim text m = some c ↔ ¬ DeniedAt text m.start ∧ hasPhraseClaim m = some c := by
  unfold hasClaim DeniedAt
  rw [← negated_iff]
  split_ifs with hdenied
  · simp [hdenied]
  · simp [hdenied]

theorem shouldClaim_type (h : shouldClaim text m = some c) : c.type = .functionImplements := by
  simp only [shouldClaim] at h
  split_ifs at h with hdenied hbehavior hempty
  obtain rfl := Option.some.inj h
  rfl

theorem arrowClaim_type (h : arrowClaim m = some c) : c.type = .architectureFollows := by
  simp only [arrowClaim] at h
  split_ifs at h with hlayers
  obtain rfl := Option.some.inj h
  rfl

/-- The keyword claim is decided by the first occurrence. -/
theorem keywordClaim_eq_some {kc : KeywordContract} :
    keywordClaim text kc = some c ↔
      c = kc.claim ∧ ∃ p, KeywordAt text kc p ∧ (∀ q < p, ¬ KeywordAt text kc q) ∧
        ¬ DeniedAt text p := by
  unfold keywordClaim
  constructor
  · intro h
    obtain ⟨found, hfound, hclaim⟩ := Option.bind_eq_some_iff.mp h
    obtain ⟨hstart, hmatch, hfirst⟩ := Regex.search_eq_some hfound
    split_ifs at hclaim with hdenied
    refine ⟨(Option.some.inj hclaim).symm, found.start, ⟨hstart, ?_⟩, ?_, ?_⟩
    · exact Regex.isSome_matchAt.mp (by rw [hmatch]; rfl)
    · rintro q hq ⟨_, hat⟩
      have hsome := Regex.isSome_matchAt.mpr hat
      rw [hfirst q hq] at hsome
      exact absurd hsome (by simp)
    · rw [DeniedAt, ← negated_iff]
      exact hdenied
  · rintro ⟨rfl, p, hat, hfirst, hdenied⟩
    have hsome : (search kc.pattern text).isSome = true :=
      Regex.isSome_search.mpr ⟨p, hat.1, hat.2⟩
    obtain ⟨found, hfound⟩ := Option.isSome_iff_exists.mp hsome
    obtain ⟨hstart, hmatch, hbefore⟩ := Regex.search_eq_some hfound
    have hthere : KeywordAt text kc found.start :=
      ⟨hstart, Regex.isSome_matchAt.mp (by rw [hmatch]; rfl)⟩
    -- both are the first place
    have hsame : found.start = p := by
      rcases Nat.lt_trichotomy found.start p with hlt | heq | hgt
      · exact absurd hthere (hfirst _ hlt)
      · exact heq
      · have hnone := hbefore p hgt
        have hp := Regex.isSome_matchAt.mpr hat.2
        rw [hnone] at hp
        exact absurd hp (by simp)
    rw [DeniedAt, ← negated_iff, ← hsame] at hdenied
    rw [hfound, Option.bind_some, if_neg hdenied]

theorem mem_claimsOf : c ∈ claimsOf text ↔
    (∃ m ∈ allMatches kSupports text, supportsClaim m = some c) ∨
      (∃ m ∈ allMatches kImplements text, implementsClaim m = some c) ∨
      (∃ m ∈ allMatches kHas text, hasClaim text m = some c) ∨
      (∃ m ∈ allMatches kShould text, shouldClaim text m = some c) ∨
      (∃ kc ∈ kKeywords, keywordClaim text kc = some c) ∨
      ∃ m ∈ allMatches kArrow text, arrowClaim m = some c := by
  simp only [claimsOf, List.mem_append, List.mem_filterMap, or_assoc]

theorem keyword_of_claim {kc kc' : KeywordContract} (hkc : kc ∈ kKeywords) (hkc' : kc' ∈ kKeywords)
    (h : kc.claim = kc'.claim) : kc = kc' := by
  have hsubject : kc.subject = kc'.subject := congrArg Claim.subject h
  have hnodup : (kKeywords.map KeywordContract.subject).Nodup := by decide
  exact List.inj_on_of_nodup_map hnodup hkc hkc' hsubject

/-- A keyword is claimed by its own pattern alone. -/
theorem claim_mem_claimsOf {kc : KeywordContract} (hkc : kc ∈ kKeywords) :
    kc.claim ∈ claimsOf text ↔ keywordClaim text kc = some kc.claim := by
  rw [mem_claimsOf]
  constructor
  · rintro (⟨m, _, h⟩ | ⟨m, _, h⟩ | ⟨m, _, h⟩ | ⟨m, _, h⟩ | ⟨kc', hkc', h⟩ | ⟨m, _, h⟩)
    · exact absurd (verbClaim_eq_some h).1 (by simp [KeywordContract.claim])
    · exact absurd (verbClaim_eq_some h).1 (by simp [KeywordContract.claim])
    · exact absurd (hasPhraseClaim_eq_some (hasClaim_eq_some.mp h).2).1
        (by simp [KeywordContract.claim])
    · exact absurd (shouldClaim_type h) (by simp [KeywordContract.claim])
    · obtain rfl := keyword_of_claim hkc hkc' (keywordClaim_eq_some.mp h).1
      exact h
    · exact absurd (arrowClaim_type h) (by simp [KeywordContract.claim])
  · intro h
    exact .inr (.inr (.inr (.inr (.inl ⟨kc, hkc, h⟩))))

theorem mem_parse {sourceKind sourceRef : Str} {pc : ParsedClaim} :
    pc ∈ parse text sourceKind sourceRef ↔
      ∃ c ∈ claimsOf text, ⟨c, sourceKind, sourceRef⟩ = pc := by
  unfold parse
  split_ifs with hempty
  · have hnone : claimsOf text = [] := by
      rw [hempty]
      decide
    simp [hnone]
  · exact List.mem_map

end Origin

/-! ## When polarity is kept -/

section Kept

variable {text sourceKind sourceRef : Str}

/-- A claim of `supports` rests on matches of `supports`. -/
theorem supportedAt_verb {c : Claim} {p : ℕ} (h : SupportedAt text c p) :
    (c.predicate = str "supported_by" →
        ∃ m ∈ allMatches kSupports text, supportsClaim m = some c ∧ m.start = p) ∧
      (c.predicate = str "implemented_by" →
        ∃ m ∈ allMatches kImplements text, implementsClaim m = some c ∧ m.start = p) := by
  cases h with
  | supports hm hc =>
      refine ⟨fun _ => ⟨_, hm, hc, rfl⟩, fun hpredicate => ?_⟩
      exact absurd ((verbClaim_eq_some hc).2.symm.trans hpredicate) (by decide)
  | implements hm hc =>
      refine ⟨fun hpredicate => ?_, fun _ => ⟨_, hm, hc, rfl⟩⟩
      exact absurd ((verbClaim_eq_some hc).2.symm.trans hpredicate) (by decide)
  | has hm hc =>
      have hhas := (hasPhraseClaim_eq_some hc).2
      refine ⟨fun hpredicate => ?_, fun hpredicate => ?_⟩
      · exact absurd (hhas.symm.trans hpredicate) (by decide)
      · exact absurd (hhas.symm.trans hpredicate) (by decide)
  | keyword hkc hat =>
      refine ⟨fun hpredicate => ?_, fun hpredicate => ?_⟩
      · exact absurd (show str "holds" = _ from hpredicate) (by decide)
      · exact absurd (show str "holds" = _ from hpredicate) (by decide)

theorem PolarityKept.of_mem (h : PolarityKept text (parse text sourceKind sourceRef)) {c : Claim}
    (hc : c ∈ claimsOf text) (htype : c.type = .capabilityExists ∨ c.type = .contractHolds) :
    ∃ p, SupportedAt text c p ∧ ¬ DeniedAt text p :=
  h.positive ⟨c, sourceKind, sourceRef⟩ (mem_parse.mpr ⟨c, hc, rfl⟩) htype

theorem exists_parse_iff {c : Claim} :
    (∃ pc ∈ parse text sourceKind sourceRef, pc.toClaim = c) ↔ c ∈ claimsOf text := by
  constructor
  · rintro ⟨pc, hpc, rfl⟩
    obtain ⟨c, hc, rfl⟩ := mem_parse.mp hpc
    exact hc
  · intro hc
    exact ⟨⟨c, sourceKind, sourceRef⟩, mem_parse.mpr ⟨c, hc, rfl⟩, rfl⟩

theorem denialsHarmless_of_kept (h : PolarityKept text (parse text sourceKind sourceRef)) :
    DenialsHarmless text where
  supports := by
    intro m hm c hc _
    have htype := verbClaim_eq_some hc
    obtain ⟨p, hat, hnot⟩ := h.of_mem (mem_claimsOf.mpr (.inl ⟨m, hm, hc⟩)) (.inl htype.1)
    obtain ⟨m', hm', hc', rfl⟩ := (supportedAt_verb hat).1 htype.2
    exact ⟨m', hm', hc', hnot⟩
  implements := by
    intro m hm c hc _
    have htype := verbClaim_eq_some hc
    obtain ⟨p, hat, hnot⟩ := h.of_mem (mem_claimsOf.mpr (.inr (.inl ⟨m, hm, hc⟩))) (.inl htype.1)
    obtain ⟨m', hm', hc', rfl⟩ := (supportedAt_verb hat).2 htype.2
    exact ⟨m', hm', hc', hnot⟩
  keywords := by
    intro kc hkc p hat hfirst hdenied q hq
    by_contra hnot
    have hclaim := exists_parse_iff.mp ((h.keywords kc hkc).mpr ⟨q, hq, hnot⟩)
    obtain ⟨-, p', hat', hfirst', hnot'⟩ :=
      keywordClaim_eq_some.mp ((claim_mem_claimsOf hkc).mp hclaim)
    -- both places are the first
    have hsame : p' = p := by
      rcases Nat.lt_trichotomy p' p with hlt | heq | hgt
      · exact absurd hat' (hfirst p' hlt)
      · exact heq
      · exact absurd hat (hfirst' p hgt)
    exact hnot' (hsame ▸ hdenied)

theorem positive_of_harmless (h : DenialsHarmless text) {c : Claim} (hc : c ∈ claimsOf text)
    (htype : c.type = .capabilityExists ∨ c.type = .contractHolds) :
    ∃ p, SupportedAt text c p ∧ ¬ DeniedAt text p := by
  rcases mem_claimsOf.mp hc with ⟨m, hm, hc⟩ | ⟨m, hm, hc⟩ | ⟨m, hm, hc⟩ | ⟨m, _, hc⟩ |
    ⟨kc, hkc, hc⟩ | ⟨m, _, hc⟩
  · by_cases hdenied : DeniedAt text m.start
    · obtain ⟨m', hm', hc', hnot⟩ := h.supports m hm c hc hdenied
      exact ⟨m'.start, .supports hm' hc', hnot⟩
    · exact ⟨m.start, .supports hm hc, hdenied⟩
  · by_cases hdenied : DeniedAt text m.start
    · obtain ⟨m', hm', hc', hnot⟩ := h.implements m hm c hc hdenied
      exact ⟨m'.start, .implements hm' hc', hnot⟩
    · exact ⟨m.start, .implements hm hc, hdenied⟩
  · obtain ⟨hnot, hphrase⟩ := hasClaim_eq_some.mp hc
    exact ⟨m.start, .has hm hphrase, hnot⟩
  · rw [shouldClaim_type hc] at htype
    exact absurd htype (by decide)
  · obtain ⟨rfl, p, hat, -, hnot⟩ := keywordClaim_eq_some.mp hc
    exact ⟨p, .keyword hkc hat, hnot⟩
  · rw [arrowClaim_type hc] at htype
    exact absurd htype (by decide)

theorem kept_of_denialsHarmless (h : DenialsHarmless text) :
    PolarityKept text (parse text sourceKind sourceRef) where
  positive := by
    intro pc hpc htype
    obtain ⟨c, hc, rfl⟩ := mem_parse.mp hpc
    exact positive_of_harmless h hc htype
  keywords := by
    intro kc hkc
    rw [exists_parse_iff, claim_mem_claimsOf hkc, keywordClaim_eq_some]
    constructor
    · rintro ⟨-, p, hat, -, hnot⟩
      exact ⟨p, hat, hnot⟩
    · rintro ⟨q, hq, hnot⟩
      classical
      -- the first place is not denied, else no place would be
      have hthere : ∃ p, KeywordAt text kc p := ⟨q, hq⟩
      have hfirst : ∀ r < Nat.find hthere, ¬ KeywordAt text kc r := fun r => Nat.find_min hthere
      refine ⟨rfl, Nat.find hthere, Nat.find_spec hthere, hfirst, ?_⟩
      intro hdenied
      exact hnot (h.keywords kc hkc _ (Nat.find_spec hthere) hfirst hdenied q hq)

end Kept

/-- **Polarity is kept exactly on the texts whose denials do no harm.** -/
theorem parse_polarity_iff (text sourceKind sourceRef : Str) :
    PolarityKept text (parse text sourceKind sourceRef) ↔ DenialsHarmless text :=
  ⟨denialsHarmless_of_kept, kept_of_denialsHarmless⟩

/-- `README`s with a denied capability, and with a contract that is denied first. -/
def deniedCapability : Str := str "It does not support hot reload."

def deniedThenHeld : Str := str "v1 is not lock-free, v2 is lock-free"

/-- A denial becomes a promise, and a keyword is passed over for the denial in front of another. -/
theorem parse_flips_polarity :
    ((parse deniedCapability (str "readme") []).map ParsedClaim.toClaim =
        [⟨.capabilityExists, str "HotReload", str "supported_by", [], str "repository"⟩] ∧
      ¬ PolarityKept deniedCapability (parse deniedCapability (str "readme") [])) ∧
      parse deniedThenHeld (str "readme") [] = [] ∧
      ¬ PolarityKept deniedThenHeld (parse deniedThenHeld (str "readme") []) := by
  have hmatches : allMatches kSupports deniedCapability = [⟨12, 30, [str "hot reload"]⟩] := by
    decide +kernel
  have hempty : parse deniedThenHeld (str "readme") [] = [] := by decide +kernel
  refine ⟨⟨by decide +kernel, ?_⟩, hempty, ?_⟩
  · intro hkept
    have hnamed := (denialsHarmless_of_kept hkept).supports
    unfold NamedElsewhere at hnamed
    rw [hmatches] at hnamed
    have hdenied : DeniedAt deniedCapability 12 := negated_iff.mp (by decide +kernel)
    obtain ⟨m, hm, -, hnot⟩ := hnamed _ (List.mem_singleton_self _)
      ⟨.capabilityExists, str "HotReload", str "supported_by", [], str "repository"⟩
      (by decide +kernel) hdenied
    rw [List.mem_singleton.mp hm] at hnot
    exact hnot hdenied
  · intro hkept
    let kc : KeywordContract := ⟨keywordPair (str "lock") (str "free"), str "LockFree"⟩
    have hkc : kc ∈ kKeywords := by simp [kKeywords, kc]
    have hat : KeywordAt deniedThenHeld kc 27 :=
      ⟨by decide, Regex.isSome_matchAt.mp (by decide +kernel)⟩
    have hnot : ¬ DeniedAt deniedThenHeld 27 := fun hdenied =>
      absurd (negated_iff.mpr hdenied) (by decide +kernel)
    obtain ⟨c, hc, -⟩ := (hkept.keywords kc hkc).mpr ⟨27, hat, hnot⟩
    rw [hempty] at hc
    exact absurd hc List.not_mem_nil

end CodeScope.Verify
