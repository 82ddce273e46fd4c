import CodeScope.Library.TextSearch

/-! # The languages a README claims

`extractLanguageClaims`: diagrams are masked, the lines are annotated with their heading and their
table, and the mentions of each spelling are counted where their context makes them claims about
this project. Positions count characters; the source counts bytes, which separates no two
characters differently in valid UTF-8. -/

namespace CodeScope.Verify

open Text TextSearch

/-- `std::isspace` of the C locale. -/
def isCSpace (c : Char) : Bool := c ∈ [' ', '\t', '\n', '\x0b', '\x0c', '\r']

def findCaseInsensitive (haystack needle : Str) (start : ℕ) : Option ℕ :=
  findFrom sameLetter needle haystack start

/-- `std::string::find` for a needle that is not empty. -/
def findExact (haystack needle : Str) (start : ℕ) : Option ℕ :=
  findFrom (fun a b => a = b) needle haystack start

def isWordBoundary (text : Str) (pos : ℕ) : Bool :=
  pos = 0 || !(text[pos - 1]?).any Char.isAlphanum

def isWordBoundaryAfter (text : Str) (stop : ℕ) : Bool := !(text[stop]?).any Char.isAlphanum

/-! ## Lines and their context -/

structure ReadmeLine where
  start : ℕ
  stop : ℕ
  table : Bool
  heading : Option ℕ
  tableHeader : Option ℕ
deriving DecidableEq, Repr

/-- `text.substr(start, end - start)` -/
def between (text : Str) (start stop : ℕ) : Str := (text.drop start).take (stop - start)

/-- Where the lines begin and end. -/
def lineSpans (pos : ℕ) : List Str → List (ℕ × ℕ)
  | [] => []
  | seg :: segs => (pos, pos + seg.length) :: lineSpans (pos + seg.length + 1) segs

/-- The first character of a line that is not a space is `c`. -/
def beginsWith (c : Char) (text : Str) (span : ℕ × ℕ) : Bool :=
  ((between text span.1 span.2).dropWhile isCSpace).head? = some c

/-- The topmost row of the table block that row `i` belongs to. -/
def tableTop (table : ℕ → Bool) : ℕ → ℕ
  | 0 => 0
  | i + 1 => if table i then tableTop table i else i + 1

def annotateReadmeLines (text : Str) : List ReadmeLine :=
  let spans := lineSpans 0 (segments '\n' text)
  let table (i : ℕ) : Bool := (spans[i]?).any (beginsWith '|' text)
  let heading (i : ℕ) : Bool := (spans[i]?).any (beginsWith '#' text)
  spans.mapIdx fun i span =>
    { start := span.1
      stop := span.2
      table := table i
      heading := (List.range (i + 1)).reverse.find? heading
      tableHeader := if table i then some (tableTop table i) else none }

def lineOfMention (lines : List ReadmeLine) (pos : ℕ) : Option ℕ :=
  lines.findIdx? fun l => l.start ≤ pos && pos ≤ l.stop

def containsAnyCue (haystack : Str) (cues : List Str) : Bool :=
  cues.any fun cue => (findCaseInsensitive haystack cue 0).isSome

def kCapabilityProseCues : List Str :=
  [str "supports", str "supported", str "supporting", str "support", str "can parse", str "parses",
    str "parsed", str "handles", str "支持", str "解析", str "兼容"]

def kCapabilityHeaderCues : List Str :=
  [str "support", str "parse", str "parser", str "handle", str "recogni", str "verified",
    str "支持", str "解析", str "兼容"]

def kThirdPartyHeaderCues : List Str := [str "project"]

def kHandlingCues : List Str :=
  [str "skip", str "exclude", str "filter", str "reject", str "top-only", str "handled",
    str "handles", str "namespace", str "convention", str "parses", str "parsed", str "parsing",
    str "can parse", str "支持", str "解析", str "兼容"]

def lineText (text : Str) (l : ReadmeLine) : Str := between text l.start l.stop

/-- The first line of the block of lines around `i` that are not blank. -/
def paragraphTop (blank : ℕ → Bool) : ℕ → ℕ
  | 0 => 0
  | i + 1 => if blank i then i + 1 else paragraphTop blank i

def paragraphAround (text : Str) (lines : List ReadmeLine) (idx : ℕ) : Str :=
  let blankLine (l : ReadmeLine) : Bool := (lineText text l).all isCSpace
  let lo := paragraphTop (fun i => (lines[i]?).any blankLine) idx
  let hi := idx + ((lines.drop (idx + 1)).takeWhile fun l => !blankLine l).length
  ((lines.take (hi + 1)).drop lo).flatMap fun l => lineText text l ++ ['\n']

def isNonProjectContext (text : Str) (lines : List ReadmeLine) (pos : ℕ) : Bool :=
  match lineOfMention lines pos with
  | none => false
  | some idx =>
      (lines[idx]?).any fun l =>
        containsAnyCue (lineText text l) kCapabilityProseCues ||
        containsAnyCue (paragraphAround text lines idx) kHandlingCues ||
        (l.heading.bind (lines[·]?)).any (fun h =>
          containsAnyCue (lineText text h) kCapabilityHeaderCues) ||
        (l.tableHeader.bind (lines[·]?)).any (fun t =>
          containsAnyCue (lineText text t) kCapabilityHeaderCues ||
          containsAnyCue (lineText text t) kThirdPartyHeaderCues)

/-! ## Mentions -/

inductive MatchMode where
  | substring
  | word
  | wordCaseSensitive
deriving DecidableEq, Repr

/-- The search of a match mode. -/
def MatchMode.find (mode : MatchMode) (text needle : Str) (start : ℕ) : Option ℕ :=
  match mode with
  | .wordCaseSensitive => findExact text needle start
  | _ => findCaseInsensitive text needle start

theorem MatchMode.find_bound {mode : MatchMode} {text needle : Str} {start p : ℕ}
    (h : mode.find text needle start = some p) :
    start ≤ p ∧ p + needle.length ≤ text.length ∧ needle ≠ [] := by
  cases mode with
  | substring | word | wordCaseSensitive => exact findFrom_bound h

/-- Whether an occurrence counts: as part of a word, or as a word of its own that is neither `C++`
    nor `C#`. -/
def counts (text : Str) (lines : List ReadmeLine) (needle : Str) (mode : MatchMode) (pos : ℕ) :
    Bool :=
  let stop := pos + needle.length
  match mode with
  | .substring => !isNonProjectContext text lines pos
  | _ =>
      !(text[stop]?).any (fun c => c = '+' || c = '#') && isWordBoundary text pos &&
        isWordBoundaryAfter text stop && !isNonProjectContext text lines pos

/-- The loop of `countClaimMentions` from `pos` on. -/
def countFrom (text : Str) (lines : List ReadmeLine) (needle : Str) (mode : MatchMode) (pos : ℕ) :
    ℕ :=
  match h : mode.find text needle pos with
  | none => 0
  | some p =>
      (if counts text lines needle mode p then 1 else 0) +
        countFrom text lines needle mode (p + needle.length)
termination_by text.length - pos
decreasing_by
  obtain ⟨hstart, hstop, hne⟩ := MatchMode.find_bound h
  have hpos := List.length_pos_of_ne_nil hne
  omega

def countClaimMentions (text : Str) (lines : List ReadmeLine) (needle : Str) (mode : MatchMode) :
    ℕ :=
  countFrom text lines needle mode 0

/-! ## Masking -/

def fence : Str := str "```"

/-- The characters from `start` up to `stop` blanked, except line ends. -/
def blank (text : Str) (start stop : ℕ) : Str :=
  text.mapIdx fun i c => if start ≤ i ∧ i < stop ∧ c ≠ '\n' ∧ c ≠ '\r' then ' ' else c

@[simp] theorem length_blank (text : Str) (start stop : ℕ) :
    (blank text start stop).length = text.length := List.length_mapIdx

/-- Where the block that an opening fence begins has its tag, and its closing fence. -/
structure FencedBlock where
  lang : Str
  langEnd : ℕ
  close : ℕ

/-- The next fenced block that is closed. -/
def nextBlock (masked : Str) (pos : ℕ) : Option FencedBlock := do
  let opened ← findExact masked fence pos
  let langPos := skipWhile isCSpace masked (opened + fence.length)
  let langEnd := skipWhile (fun c => !isCSpace c) masked langPos
  let close ← findExact masked fence langEnd
  return ⟨between masked langPos langEnd, langEnd, close⟩

theorem nextBlock_bound {masked : Str} {pos : ℕ} {b : FencedBlock}
    (h : nextBlock masked pos = some b) :
    pos < b.close + fence.length ∧ b.close + fence.length ≤ masked.length := by
  simp only [nextBlock, Option.bind_eq_bind, Option.bind_eq_some_iff, Option.pure_def,
    Option.some.injEq] at h
  obtain ⟨opened, hopen, close, hclose, rfl⟩ := h
  have hopened := (findFrom_bound hopen).1
  have hclosed := findFrom_bound hclose
  have htag := le_skipWhile isCSpace masked (opened + fence.length)
  have hend := le_skipWhile (fun c => !isCSpace c) masked
    (skipWhile isCSpace masked (opened + fence.length))
  have hfence : fence.length = 3 := rfl
  refine ⟨?_, hclosed.2.1⟩
  have hle := hclosed.1
  simp only
  omega

/-- A block is blanked when its tag is `mermaid`. -/
def maskBlock (masked : Str) (b : FencedBlock) : Str :=
  if b.lang = str "mermaid" then blank masked b.langEnd b.close else masked

@[simp] theorem length_maskBlock (masked : Str) (b : FencedBlock) :
    (maskBlock masked b).length = masked.length := by
  rw [maskBlock]
  split
  · exact length_blank masked b.langEnd b.close
  · rfl

/-- The masking loop of `extractLanguageClaims` from `pos` on. -/
def maskFrom (masked : Str) (pos : ℕ) : Str :=
  match _h : nextBlock masked pos with
  | none => masked
  | some b => maskFrom (maskBlock masked b) (b.close + fence.length)
termination_by masked.length - pos
decreasing_by
  have hbound := nextBlock_bound _h
  rw [length_maskBlock]
  omega

/-- **Masking keeps every position where it is.** -/
theorem length_maskFrom (masked : Str) (pos : ℕ) :
    (maskFrom masked pos).length = masked.length := by
  fun_induction maskFrom masked pos with
  | case1 masked pos hnone => rfl
  | case2 masked pos b hb ih => rw [ih, length_maskBlock]

/-! ## Claims -/

structure LanguagePattern where
  pattern : Str
  canonical : Str
  display : Str
deriving DecidableEq, Repr

def kLanguagePatterns : List LanguagePattern :=
  [⟨str "c++", str "cpp", str "C++"⟩,
    ⟨str "cpp", str "cpp", str "C++"⟩,
    ⟨str "cxx", str "cpp", str "C++"⟩,
    ⟨str "c language", str "cpp", str "C"⟩,
    ⟨str "python", str "python", str "Python"⟩,
    ⟨str "typescript", str "typescript", str "TypeScript"⟩,
    ⟨str "javascript", str "javascript", str "JavaScript"⟩,
    ⟨str "rust", str "rust", str "Rust"⟩,
    ⟨str "golang", str "go", str "Go"⟩]

structure LanguageClaim where
  canonical : Str
  display : Str
  mentionCount : ℕ
deriving DecidableEq, Repr

/-- Mentions are added to the claim of their language, the first of which creates it. -/
def addMentions (canonical display : Str) (count : ℕ) : List LanguageClaim → List LanguageClaim
  | [] => [⟨canonical, display, count⟩]
  | c :: rest =>
      if c.canonical = canonical then { c with mentionCount := c.mentionCount + count } :: rest
      else c :: addMentions canonical display count rest

/-- What the mentions of one spelling add; nothing when there are none. -/
def claimSpelling (canonical display : Str) (count : ℕ) (result : List LanguageClaim) :
    List LanguageClaim :=
  if count = 0 then result else addMentions canonical display count result

def extractLanguageClaims (readme : Str) : List LanguageClaim :=
  if readme = [] then []
  else
    let masked := maskFrom readme 0
    let lines := annotateReadmeLines masked
    let count := countClaimMentions masked lines
    let fromPatterns := kLanguagePatterns.foldl
      (fun result pat =>
        claimSpelling pat.canonical pat.display (count pat.pattern .substring) result) []
    let withGo := claimSpelling (str "go") (str "Go") (count (str "go") .word) fromPatterns
    let withJava := claimSpelling (str "java") (str "Java") (count (str "java") .word) withGo
    claimSpelling (str "cpp") (str "C") (count (str "C") .wordCaseSensitive) withJava

theorem canonical_addMentions (canonical display : Str) (count : ℕ) (result : List LanguageClaim) :
    (addMentions canonical display count result).map LanguageClaim.canonical =
      if canonical ∈ result.map LanguageClaim.canonical then
        result.map LanguageClaim.canonical
      else result.map LanguageClaim.canonical ++ [canonical] := by
  induction result with
  | nil => rfl
  | cons c rest ih =>
      rw [addMentions]
      by_cases hc : c.canonical = canonical
      · have hmem : canonical ∈ (c :: rest).map LanguageClaim.canonical := by simp [hc]
        rw [if_pos hc, if_pos hmem, List.map_cons, List.map_cons]
      · rw [if_neg hc, List.map_cons, ih]
        by_cases hmem : canonical ∈ rest.map LanguageClaim.canonical
        · have hcons : canonical ∈ (c :: rest).map LanguageClaim.canonical :=
            List.mem_cons_of_mem _ hmem
          rw [if_pos hmem, if_pos hcons, List.map_cons]
        · have hnot : canonical ∉ (c :: rest).map LanguageClaim.canonical := by
            rw [List.map_cons, List.mem_cons, not_or]
            exact ⟨Ne.symm hc, hmem⟩
          rw [if_neg hmem, if_neg hnot, List.map_cons, List.cons_append]

/-- At most one claim a language. -/
def Distinct (result : List LanguageClaim) : Prop :=
  (result.map LanguageClaim.canonical).Nodup

theorem Distinct.claimSpelling {result : List LanguageClaim} (h : Distinct result)
    (canonical display : Str) (count : ℕ) :
    Distinct (claimSpelling canonical display count result) := by
  rw [Verify.claimSpelling]
  split
  · exact h
  · rw [Distinct, canonical_addMentions]
    split
    · exact h
    · rename_i hnot
      exact List.nodup_append.mpr ⟨h, List.nodup_singleton _, fun a ha b hb heq =>
        hnot (by rw [← List.mem_singleton.mp hb, ← heq]; exact ha)⟩

/-- **No language is claimed twice.** -/
theorem extractLanguageClaims_distinct (readme : Str) : Distinct (extractLanguageClaims readme) := by
  rw [extractLanguageClaims]
  split
  · exact List.nodup_nil
  · refine Distinct.claimSpelling (Distinct.claimSpelling (Distinct.claimSpelling ?_ _ _ _) _ _ _)
      _ _ _
    refine List.foldlRecOn _ _ List.nodup_nil ?_
    intro result hresult pat _
    exact hresult.claimSpelling _ _ _

example : extractLanguageClaims (str "Written in C++ and Go.") =
    [⟨str "cpp", str "C++", 1⟩, ⟨str "go", str "Go", 1⟩] := by
  decide +kernel

end CodeScope.Verify
