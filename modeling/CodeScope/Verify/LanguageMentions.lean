import CodeScope.Library.SqlText
import CodeScope.Verify.LanguageClaims

/-! # The mentions of a language

A mention is a place where a spelling of the language stands as a word of its own, outside the
diagrams and in a context that makes it a claim about this project. The counters of
`extractLanguageClaims` look for each spelling by itself: they find every mention of a spelling, and
besides it stands inside longer words; and two spellings can stand at one place. -/

namespace CodeScope.Verify

open Text TextSearch

/-! ## Fenced blocks -/

/-- The closed fenced blocks from `pos` on, each with the place of its opening fence. -/
def fencedBlocks (text : Str) (pos : ℕ) : List (ℕ × FencedBlock) :=
  match _h : nextBlock text pos with
  | none => []
  | some b => ((findExact text fence pos).getD 0, b) :: fencedBlocks text (b.close + fence.length)
termination_by text.length - pos
decreasing_by
  have hbound := nextBlock_bound _h
  omega

/-- The tag of a fence: the first word behind it on its line. -/
def fenceTag (text : Str) (opened : ℕ) : Str :=
  ((text.drop (opened + fence.length)).dropWhile fun c => c = ' ' || c = '\t').takeWhile
    fun c => !isCSpace c

/-- A position is in the body of a block. -/
def FencedBlock.Holds (b : FencedBlock) (p : ℕ) : Prop := b.langEnd ≤ p ∧ p < b.close

/-- A position is in the body of a block whose tag is `mermaid`. -/
def InDiagram (text : Str) (p : ℕ) : Prop :=
  ∃ ob ∈ fencedBlocks text 0, fenceTag text ob.1 = str "mermaid" ∧ ob.2.Holds p

/-- A position is in a body that is blanked: the word behind the fence is `mermaid`, be it on a
    later line. -/
def InBlanked (text : Str) (p : ℕ) : Prop :=
  ∃ ob ∈ fencedBlocks text 0, ob.2.lang = str "mermaid" ∧ ob.2.Holds p

/-! ## Masking -/

variable {text text' readme : Str} {pos : ℕ} {blocks : List (ℕ × FencedBlock)}
  {result : List LanguageClaim}

theorem findFrom_congr {same : Char → Char → Bool} {needle : Str} {start : ℕ}
    (hlen : text.length = text'.length) (hdrop : text.drop start = text'.drop start) :
    findFrom same needle text start = findFrom same needle text' start := by
  rw [findFrom, findFrom, hlen, hdrop]

theorem drop_congr {m n : ℕ} (hdrop : text.drop m = text'.drop m) (hle : m ≤ n) :
    text.drop n = text'.drop n := by
  obtain ⟨k, rfl⟩ := Nat.exists_eq_add_of_le hle
  rw [← List.drop_drop, hdrop, List.drop_drop]

theorem skipWhile_congr {p : Char → Bool} (hdrop : text.drop pos = text'.drop pos) :
    skipWhile p text pos = skipWhile p text' pos := by
  rw [skipWhile, skipWhile, hdrop]

/-- The next block only depends on the text from `pos` on. -/
theorem nextBlock_congr (hlen : text.length = text'.length) (hdrop : text.drop pos = text'.drop pos) :
    nextBlock text pos = nextBlock text' pos := by
  have hopen : findExact text fence pos = findExact text' fence pos := findFrom_congr hlen hdrop
  simp only [nextBlock, hopen]
  cases hfound : findExact text' fence pos with
  | none => rfl
  | some opened =>
      have hpos := (findFrom_bound hfound).1
      have htag := le_skipWhile isCSpace text' (opened + fence.length)
      have hend := le_skipWhile (fun c => !isCSpace c) text'
        (skipWhile isCSpace text' (opened + fence.length))
      have hdrop1 := drop_congr hdrop (Nat.le_add_right_of_le (k := fence.length) hpos)
      have hskip1 := skipWhile_congr (p := isCSpace) hdrop1
      have hdrop2 := drop_congr hdrop1 htag
      have hskip2 := skipWhile_congr (p := fun c => !isCSpace c) hdrop2
      simp only [Option.bind_eq_bind, Option.bind_some, hskip1, hskip2, between, hdrop2]
      have hclose : findExact text fence (skipWhile (fun c => !isCSpace c) text'
            (skipWhile isCSpace text' (opened + fence.length))) =
          findExact text' fence (skipWhile (fun c => !isCSpace c) text'
            (skipWhile isCSpace text' (opened + fence.length))) :=
        findFrom_congr hlen (drop_congr hdrop2 hend)
      rw [hclose]

theorem fencedBlocks_of_none (h : nextBlock text pos = none) : fencedBlocks text pos = [] := by
  rw [fencedBlocks]
  split
  · rfl
  · next b hb => exact absurd (h.symm.trans hb) (by simp)

theorem fencedBlocks_of_some {b : FencedBlock} (h : nextBlock text pos = some b) :
    fencedBlocks text pos =
      ((findExact text fence pos).getD 0, b) :: fencedBlocks text (b.close + fence.length) := by
  rw [fencedBlocks]
  split
  · next hnone => exact absurd (h.symm.trans hnone) (by simp)
  · next b' hb' => rw [Option.some.inj (hb'.symm.trans h)]

theorem fencedBlocks_congr (hlen : text.length = text'.length)
    (hdrop : text.drop pos = text'.drop pos) : fencedBlocks text pos = fencedBlocks text' pos := by
  fun_induction fencedBlocks text pos with
  | case1 pos hnone =>
      rw [nextBlock_congr hlen hdrop] at hnone
      rw [fencedBlocks_of_none hnone]
  | case2 pos b hb ih =>
      have hbound := nextBlock_bound hb
      have hopen : findExact text fence pos = findExact text' fence pos := findFrom_congr hlen hdrop
      rw [nextBlock_congr hlen hdrop] at hb
      rw [fencedBlocks_of_some hb, hopen, ih (drop_congr hdrop (by omega))]

theorem drop_maskBlock (text : Str) (b : FencedBlock) :
    (maskBlock text b).drop (b.close + fence.length) = text.drop (b.close + fence.length) := by
  refine List.ext_getElem? fun i => ?_
  rw [maskBlock]
  split
  · rw [List.getElem?_drop, List.getElem?_drop, blank, List.getElem?_mapIdx]
    cases text[b.close + fence.length + i]? with
    | none => rfl
    | some c => rw [Option.map_some, if_neg (by omega)]
  · rfl

/-- **The masking loop blanks the blocks one after the other.** -/
theorem maskFrom_eq (text : Str) (pos : ℕ) :
    maskFrom text pos =
      (fencedBlocks text pos).foldl (fun masked ob => maskBlock masked ob.2) text := by
  fun_induction maskFrom text pos with
  | case1 text pos hnone =>
      rw [fencedBlocks_of_none hnone]
      rfl
  | case2 text pos b hb ih =>
      rw [ih, fencedBlocks_congr (length_maskBlock text b) (drop_maskBlock text b),
        fencedBlocks_of_some hb, List.foldl_cons]

theorem getElem?_maskBlock (text : Str) (b : FencedBlock) (i : ℕ) :
    (¬ (b.lang = str "mermaid" ∧ b.Holds i) → (maskBlock text b)[i]? = text[i]?) ∧
      (b.lang = str "mermaid" ∧ b.Holds i →
        (maskBlock text b)[i]? = (text[i]?).map fun c =>
          if c ≠ '\n' ∧ c ≠ '\r' then ' ' else c) := by
  rw [maskBlock]
  by_cases hlang : b.lang = str "mermaid"
  · simp only [if_pos hlang, blank, List.getElem?_mapIdx]
    constructor
    · intro hout
      cases text[i]? with
      | none => rfl
      | some c =>
          rw [Option.map_some, if_neg]
          exact fun h => hout ⟨hlang, h.1, h.2.1⟩
    · intro hin
      cases text[i]? with
      | none => rfl
      | some c => simp [hin.2.1, hin.2.2]
  · rw [if_neg hlang]
    exact ⟨fun _ => rfl, fun h => absurd h.1 hlang⟩

/-- What blanking leaves in a body. -/
def isBlank (c : Char) : Bool := c = ' ' || c = '\n' || c = '\r'

theorem isBlank_blanked (c : Char) :
    isBlank (if c ≠ '\n' ∧ c ≠ '\r' then ' ' else c) = true := by
  by_cases hn : c = '\n'
  · simp [isBlank, hn]
  · by_cases hr : c = '\r'
    · simp [isBlank, hr]
    · rw [if_pos ⟨hn, hr⟩]
      rfl

theorem foldl_maskBlock_out {i : ℕ}
    (hout : ∀ ob ∈ blocks, ¬ (ob.2.lang = str "mermaid" ∧ ob.2.Holds i)) :
    (blocks.foldl (fun masked ob => maskBlock masked ob.2) text)[i]? = text[i]? := by
  induction blocks generalizing text with
  | nil => rfl
  | cons ob blocks ih =>
      rw [List.foldl_cons, ih fun o ho => hout o (List.mem_cons_of_mem _ ho)]
      exact (getElem?_maskBlock text ob.2 i).1 (hout ob List.mem_cons_self)

theorem maskBlock_keeps_blank {i : ℕ} (h : (text[i]?).all isBlank = true) (b : FencedBlock) :
    ((maskBlock text b)[i]?).all isBlank = true := by
  by_cases hin : b.lang = str "mermaid" ∧ b.Holds i
  · rw [(getElem?_maskBlock text b i).2 hin]
    cases hc : text[i]? with
    | none => rfl
    | some c =>
        rw [Option.map_some, Option.all_some]
        exact isBlank_blanked c
  · rwa [(getElem?_maskBlock text b i).1 hin]

theorem foldl_keeps_blank {i : ℕ} (h : (text[i]?).all isBlank = true) :
    ((blocks.foldl (fun masked ob => maskBlock masked ob.2) text)[i]?).all isBlank = true := by
  induction blocks generalizing text with
  | nil => exact h
  | cons ob blocks ih => exact ih (maskBlock_keeps_blank h ob.2)

theorem foldl_maskBlock_in {i : ℕ} (hin : ∃ ob ∈ blocks, ob.2.lang = str "mermaid" ∧ ob.2.Holds i) :
    ((blocks.foldl (fun masked ob => maskBlock masked ob.2) text)[i]?).all isBlank = true := by
  induction blocks generalizing text with
  | nil =>
      obtain ⟨ob, hob, _⟩ := hin
      exact absurd hob List.not_mem_nil
  | cons ob blocks ih =>
      rw [List.foldl_cons]
      obtain ⟨ob', hob', hin⟩ := hin
      rcases List.mem_cons.mp hob' with rfl | hob'
      · refine foldl_keeps_blank ?_
        rw [(getElem?_maskBlock text ob'.2 i).2 hin]
        cases text[i]? with
        | none => rfl
        | some c =>
            rw [Option.map_some, Option.all_some]
            exact isBlank_blanked c
      · exact ih ⟨ob', hob', hin⟩

/-- The README as it is scanned. -/
def scanned (readme : Str) : Str := maskFrom readme 0

theorem scanned_out {i : ℕ} (h : ¬ InBlanked readme i) : (scanned readme)[i]? = readme[i]? := by
  rw [scanned, maskFrom_eq]
  exact foldl_maskBlock_out fun ob hob hin => h ⟨ob, hob, hin⟩

theorem scanned_in {i : ℕ} (h : InBlanked readme i) :
    ((scanned readme)[i]?).all isBlank = true := by
  rw [scanned, maskFrom_eq]
  exact foldl_maskBlock_in h

@[simp] theorem length_scanned (readme : Str) : (scanned readme).length = readme.length :=
  length_maskFrom readme 0

/-! ## The borders of a body -/

theorem between_skipWhile (p : Char → Bool) (text : Str) (pos : ℕ) :
    between text pos (skipWhile p text pos) = (text.drop pos).takeWhile p := by
  rw [between, skipWhile, Nat.add_sub_cancel_left]
  exact (List.prefix_iff_eq_take.mp (List.takeWhile_prefix p)).symm

theorem drop_skipWhile (p : Char → Bool) (text : Str) (pos : ℕ) :
    text.drop (skipWhile p text pos) = (text.drop pos).dropWhile p := by
  have hsplit := congrArg (List.drop ((text.drop pos).takeWhile p).length)
    (List.takeWhile_append_dropWhile (p := p) (l := text.drop pos))
  rw [List.drop_left] at hsplit
  rw [skipWhile, ← List.drop_drop, hsplit]

theorem nextBlock_eq_some {b : FencedBlock} (h : nextBlock text pos = some b) :
    ∃ opened langPos, findExact text fence pos = some opened ∧ opened + fence.length ≤ langPos ∧
      text.drop langPos = (text.drop (opened + fence.length)).dropWhile isCSpace ∧
      b.lang = (text.drop langPos).takeWhile (fun c => !isCSpace c) ∧
      b.langEnd = langPos + b.lang.length ∧ findExact text fence b.langEnd = some b.close := by
  simp only [nextBlock, Option.bind_eq_bind, Option.bind_eq_some_iff, Option.pure_def,
    Option.some.injEq] at h
  obtain ⟨opened, hopen, close, hclose, rfl⟩ := h
  refine ⟨opened, _, hopen, le_skipWhile isCSpace text _, drop_skipWhile isCSpace text _,
    between_skipWhile _ _ _, ?_, hclose⟩
  simp only [between_skipWhile]
  rfl

/-- A body begins behind its fence, and what is behind the tag or the fence is not part of it. -/
structure FencedBlock.Within (text : Str) (pos : ℕ) (b : FencedBlock) : Prop where
  after : pos + fence.length ≤ b.langEnd
  before : b.langEnd ≤ b.close
  closing : text[b.close]? = some '`'
  tagged : b.lang = str "mermaid" → pos + fence.length < b.langEnd ∧ text[b.langEnd - 1]? = some 'd'

theorem nextBlock_within {b : FencedBlock} (h : nextBlock text pos = some b) :
    b.Within text pos := by
  obtain ⟨opened, langPos, hopen, hle, _, hlang, hend, hclose⟩ := nextBlock_eq_some h
  have hopened := (findFrom_bound hopen).1
  have hfound := findFrom_eq_some hclose
  refine ⟨by omega, hfound.1, ?_, fun hmermaid => ?_⟩
  · obtain ⟨c, hc, hsame⟩ := standsAt_getElem? hfound.2.1 (i := 0) (by decide)
    rw [Nat.add_zero] at hc
    rw [hc]
    exact congrArg some (decide_eq_true_eq.mp hsame).symm
  · have hlen : b.lang.length = 7 := by rw [hmermaid]; rfl
    refine ⟨by omega, ?_⟩
    have htag : b.lang <+: text.drop langPos := hlang ▸ List.takeWhile_prefix _
    rw [hmermaid] at htag
    have hlast := List.prefix_iff_getElem?.mp htag 6 (by decide)
    rw [List.getElem?_drop] at hlast
    rw [hend, hlen]
    exact hlast

theorem fencedBlocks_within {ob : ℕ × FencedBlock} (h : ob ∈ fencedBlocks text pos) :
    ob.2.Within text pos := by
  fun_induction fencedBlocks text pos with
  | case1 pos hnone => exact absurd h List.not_mem_nil
  | case2 pos b hb ih =>
      rcases List.mem_cons.mp h with rfl | h
      · exact nextBlock_within hb
      · have hw := ih h
        have hbound := (nextBlock_bound hb).1
        exact ⟨by have := hw.after; omega, hw.before, hw.closing,
          fun hmermaid => ⟨by have := (hw.tagged hmermaid).1; omega, (hw.tagged hmermaid).2⟩⟩

theorem entering_blanked {p : ℕ} (hout : ¬ InBlanked text p) (hin : InBlanked text (p + 1)) :
    text[p]? = some 'd' := by
  obtain ⟨ob, hob, hlang, hbegin, hend⟩ := hin
  have htag := (fencedBlocks_within hob).tagged hlang
  have hfirst : ob.2.langEnd = p + 1 := by
    by_contra hne
    exact hout ⟨ob, hob, hlang, by omega, by omega⟩
  rw [hfirst, Nat.add_sub_cancel] at htag
  exact htag.2

theorem leaving_blanked {p : ℕ} (hin : InBlanked text p) (hout : ¬ InBlanked text (p + 1)) :
    text[p + 1]? = some '`' := by
  obtain ⟨ob, hob, hlang, hbegin, hend⟩ := hin
  have hlast : ob.2.close = p + 1 := by
    by_contra hne
    exact hout ⟨ob, hob, hlang, by omega, by omega⟩
  rw [← hlast]
  exact (fencedBlocks_within hob).closing

theorem dropWhile_dropWhile {p q : Char → Bool} (hpq : ∀ c, p c = true → q c = true) (s : Str) :
    (s.dropWhile p).dropWhile q = s.dropWhile q := by
  induction s with
  | nil => rfl
  | cons c s ih =>
      by_cases hp : p c = true
      · rw [List.dropWhile_cons_of_pos hp, List.dropWhile_cons_of_pos (hpq c hp), ih]
      · rw [List.dropWhile_cons_of_neg hp]

/-- **A diagram is blanked.** -/
theorem InDiagram.blanked {p : ℕ} (h : InDiagram text p) : InBlanked text p := by
  obtain ⟨ob, hob, htag, hholds⟩ := h
  refine ⟨ob, hob, ?_, hholds⟩
  clear hholds
  generalize 0 = pos at hob
  fun_induction fencedBlocks text pos with
  | case1 pos hnone => exact absurd hob List.not_mem_nil
  | case2 pos b hb ih =>
      rcases List.mem_cons.mp hob with rfl | hob
      · obtain ⟨opened, langPos, hopen, _, hdrop, hlang, _⟩ := nextBlock_eq_some hb
        have hblank : ∀ c : Char, (c = ' ' || c = '\t') = true → isCSpace c = true := by
          intro c hc
          simp only [Bool.or_eq_true, decide_eq_true_eq] at hc
          rcases hc with rfl | rfl <;> rfl
        rw [hopen, Option.getD_some, fenceTag] at htag
        have hskip := dropWhile_dropWhile hblank (text.drop (opened + fence.length))
        show b.lang = str "mermaid"
        rw [hlang, hdrop, ← hskip, ← htag]
        -- the tag does not begin with a space, so that no line end is skipped
        generalize hrest : ((text.drop (opened + fence.length)).dropWhile
          fun c => c = ' ' || c = '\t') = rest at htag
        cases rest with
        | nil => exact absurd htag (by decide)
        | cons c rest =>
            rw [List.dropWhile_cons_of_neg]
            intro hspace
            rw [List.takeWhile_cons_of_neg (by simp [hspace])] at htag
            exact absurd htag (by decide)
      · exact ih hob

/-! ## Spellings -/

/-- The characters that a match mode takes for the same. -/
def MatchMode.same : MatchMode → Char → Char → Bool
  | .wordCaseSensitive => fun a b => a = b
  | _ => sameLetter

theorem MatchMode.find_eq (mode : MatchMode) (text needle : Str) (start : ℕ) :
    mode.find text needle start = findFrom mode.same needle text start := by
  cases mode with
  | substring => rfl
  | word => rfl
  | wordCaseSensitive => rfl

/-- A spelling of a language. -/
structure Spelling where
  pattern : Str
  canonical : Str
  display : Str
  mode : MatchMode
deriving DecidableEq, Repr

/-- The table, and the three spellings that are counted behind it. -/
def spellings : List Spelling :=
  kLanguagePatterns.map (fun pat => ⟨pat.pattern, pat.canonical, pat.display, .substring⟩) ++
    [⟨str "go", str "go", str "Go", .word⟩, ⟨str "java", str "java", str "Java", .word⟩,
      ⟨str "C", str "cpp", str "C", .wordCaseSensitive⟩]

/-- `spelling_suffix` -/
def suffixed (text : Str) (stop : ℕ) : Bool := (text[stop]?).any fun c => c = '+' || c = '#'

/-- The spelling stands at `p` and not inside a longer word; the bare `C` is neither `C++` nor
    `C#`. -/
def Spelling.asWord (s : Spelling) (text : Str) (p : ℕ) : Bool :=
  standsAt s.mode.same s.pattern text p && isWordBoundary text p &&
    (!(s.pattern.getLast?).any Char.isAlphanum ||
      isWordBoundaryAfter text (p + s.pattern.length)) &&
    (s.mode != .wordCaseSensitive || !suffixed text (p + s.pattern.length))

/-! ## Scanned and written text -/

/-- No spelling has a character that borders a body, nor begins with what blanking leaves. -/
def Spelling.apart (s : Spelling) : Bool :=
  s.pattern.all (fun c => c.toLower ≠ 'd' && c.toLower ≠ '`') &&
    s.pattern.head?.any (fun c => !isBlank c.toLower)

theorem spellings_apart : ∀ s ∈ spellings, s.apart = true := by
  decide

theorem same_toLower {mode : MatchMode} {a b : Char} (h : mode.same a b = true) :
    a.toLower = b.toLower := by
  cases mode with
  | substring | word => exact decide_eq_true_eq.mp h
  | wordCaseSensitive => exact congrArg Char.toLower (decide_eq_true_eq.mp h)

section

variable {s : Spelling} {readme text : Str} {p : ℕ}

theorem Spelling.apart_ne_nil (hs : s.apart = true) : s.pattern ≠ [] := by
  intro hnil
  rw [Spelling.apart, hnil] at hs
  exact absurd hs (by decide)

theorem stands_ne_border (hs : s.apart = true)
    (h : standsAt s.mode.same s.pattern text p = true) {i : ℕ} (hi : i < s.pattern.length) :
    text[p + i]? ≠ some 'd' ∧ text[p + i]? ≠ some '`' := by
  obtain ⟨b, hb, hsame⟩ := standsAt_getElem? h hi
  rw [Spelling.apart, Bool.and_eq_true, List.all_eq_true] at hs
  have hchar := hs.1 _ (List.getElem_mem hi)
  simp only [Bool.and_eq_true, decide_eq_true_eq, same_toLower hsame] at hchar
  rw [hb]
  exact ⟨fun h => hchar.1 (by rw [Option.some.inj h]; rfl),
    fun h => hchar.2 (by rw [Option.some.inj h]; rfl)⟩

/-- The text and the scanned text have the same characters outside the bodies. -/
def SameOutside (readme text : Str) : Prop := ∀ i, ¬ InBlanked readme i → text[i]? = readme[i]?

theorem stands_out (hs : s.apart = true) (hsame : SameOutside readme text)
    (h : standsAt s.mode.same s.pattern text p = true) (hp : ¬ InBlanked readme p) {i : ℕ}
    (hi : i < s.pattern.length) : ¬ InBlanked readme (p + i) := by
  induction i with
  | zero => exact hp
  | succ i ih =>
      intro hin
      have hout := ih (Nat.lt_of_succ_lt hi)
      have hborder := entering_blanked hout hin
      rw [← hsame _ hout] at hborder
      exact (stands_ne_border hs h (Nat.lt_of_succ_lt hi)).1 hborder

/-- What stands in front of a spelling and behind it is no body either. -/
theorem stands_neighbours (hs : s.apart = true) (hsame : SameOutside readme text)
    (h : standsAt s.mode.same s.pattern text p = true) (hp : ¬ InBlanked readme p) :
    (0 < p → ¬ InBlanked readme (p - 1)) ∧ ¬ InBlanked readme (p + s.pattern.length) := by
  have hpos := List.length_pos_iff.mpr (Spelling.apart_ne_nil hs)
  constructor
  · intro hfront hin
    obtain ⟨q, rfl⟩ : ∃ q, p = q + 1 := ⟨p - 1, by omega⟩
    rw [Nat.add_sub_cancel] at hin
    have hborder := leaving_blanked hin hp
    rw [← hsame _ hp] at hborder
    exact (stands_ne_border hs h hpos).2 hborder
  · intro hin
    have hlast := stands_out hs hsame h hp (Nat.sub_lt hpos Nat.one_pos)
    have hstop : p + s.pattern.length = p + (s.pattern.length - 1) + 1 := by omega
    rw [hstop] at hin
    have hborder := entering_blanked hlast hin
    rw [← hsame _ hlast] at hborder
    exact (stands_ne_border hs h (Nat.sub_lt hpos Nat.one_pos)).1 hborder

/-- A word of the one text is a word of the other text. -/
theorem asWord_transfer {text' : Str} (hs : s.apart = true) (hsame : SameOutside readme text)
    (hsame' : SameOutside readme text') (hp : ¬ InBlanked readme p)
    (h : s.asWord text p = true) : s.asWord text' p = true := by
  simp only [Spelling.asWord, Bool.and_eq_true] at h ⊢
  obtain ⟨⟨⟨hstands, hbefore⟩, hafter⟩, hsuffix⟩ := h
  obtain ⟨hfront, hbehind⟩ := stands_neighbours hs hsame hstands hp
  have hstop : text'[p + s.pattern.length]? = text[p + s.pattern.length]? :=
    (hsame' _ hbehind).trans (hsame _ hbehind).symm
  have hstart : isWordBoundary text' p = isWordBoundary text p := by
    unfold isWordBoundary
    by_cases hzero : p = 0
    · rw [hzero]
      rfl
    · have hout := hfront (Nat.pos_of_ne_zero hzero)
      rw [(hsame' _ hout).trans (hsame _ hout).symm]
  refine ⟨⟨⟨standsAt_of_getElem? fun i hi => ?_, ?_⟩, ?_⟩, ?_⟩
  · have hout := stands_out hs hsame hstands hp hi
    rw [(hsame' _ hout).trans (hsame _ hout).symm]
    exact standsAt_getElem? hstands hi
  · rwa [hstart]
  · rwa [isWordBoundaryAfter, hstop]
  · rwa [suffixed, hstop]

/-- No spelling begins in a body that is blanked. -/
theorem not_stands_scanned (hs : s.apart = true) (hp : InBlanked readme p) :
    standsAt s.mode.same s.pattern (scanned readme) p = false := by
  refine Bool.eq_false_iff.mpr fun h => ?_
  have hpos := List.length_pos_iff.mpr (Spelling.apart_ne_nil hs)
  obtain ⟨b, hb, hsame⟩ := standsAt_getElem? h hpos
  have hblank := scanned_in hp
  rw [Nat.add_zero] at hb
  rw [hb, Option.all_some] at hblank
  rw [Spelling.apart, Bool.and_eq_true, List.head?_eq_getElem?, List.getElem?_eq_getElem hpos,
    Option.any_some, same_toLower hsame] at hs
  have hlower : isBlank b.toLower = true := by
    simp only [isBlank, Bool.or_eq_true, decide_eq_true_eq] at hblank
    rcases hblank with (rfl | rfl) | rfl <;> rfl
  rw [hlower] at hs
  exact absurd hs.2 (by decide)

/-- **The scan sees the words outside the blanked bodies**, as they are written. -/
theorem asWord_scanned (hs : s.apart = true) :
    s.asWord (scanned readme) p = true ↔ ¬ InBlanked readme p ∧ s.asWord readme p = true := by
  have hsame : SameOutside readme (scanned readme) := fun _ => scanned_out
  have hself : SameOutside readme readme := fun _ _ => rfl
  constructor
  · intro h
    have hout : ¬ InBlanked readme p := by
      intro hin
      simp only [Spelling.asWord, Bool.and_eq_true, not_stands_scanned hs hin] at h
      exact Bool.false_ne_true h.1.1.1
    exact ⟨hout, asWord_transfer hs hsame hself hout h⟩
  · exact fun ⟨hout, h⟩ => asWord_transfer hs hself hsame hout h

end

/-! ## The counters -/

theorem countFrom_eq (text : Str) (lines : List ReadmeLine) (needle : Str) (mode : MatchMode)
    (pos : ℕ) : countFrom text lines needle mode pos =
      (places mode.same needle text pos).countP (counts text lines needle mode) := by
  fun_induction countFrom text lines needle mode pos with
  | case1 pos hnone =>
      rw [MatchMode.find_eq] at hnone
      rw [places_of_none hnone]
      rfl
  | case2 pos p hp ih =>
      rw [MatchMode.find_eq] at hp
      rw [ih, places_of_some hp, List.countP_cons, Nat.add_comm]

/-- Where two places of the spelling overlap, the later one begins inside a word. -/
def Spelling.overlapsInside (s : Spelling) : Bool :=
  (List.range s.pattern.length).all fun k => k = 0 ||
    (s.pattern[k]?).map Char.toLower ≠ (s.pattern[0]?).map Char.toLower ||
    (s.pattern[k - 1]?).any fun c => c.toLower.isAlphanum

theorem spellings_overlapsInside : ∀ s ∈ spellings, s.overlapsInside = true := by
  decide

theorem isAlphanum_toLower (c : Char) : c.toLower.isAlphanum = c.isAlphanum := by
  by_cases hup : c.isUpper = true
  · have hletter : c.isAlpha = true := by rw [Char.isAlpha, hup, Bool.true_or]
    rw [Char.isAlphanum, Char.isAlphanum, Char.isAlpha_toLower_eq_isAlpha, hletter, Bool.true_or,
      Bool.true_or]
  · rw [Char.toLower_eq_of_not_isUpper hup]

section

variable {s : Spelling} {text : Str} {p : ℕ}

/-- **No counter passes over a word.** -/
theorem mem_places_of_asWord (hs : s.apart = true) (hover : s.overlapsInside = true)
    (h : s.asWord text p = true) : p ∈ places s.mode.same s.pattern text 0 := by
  simp only [Spelling.asWord, Bool.and_eq_true] at h
  obtain ⟨⟨⟨hstands, hbefore⟩, _⟩, _⟩ := h
  rcases place_or_overlap (Spelling.apart_ne_nil hs) (Nat.zero_le p) hstands with
    hmem | ⟨q, hq, hlt, hend⟩
  · exact hmem
  · -- the character in front of `p` is a character of the place at `q`
    have hearlier := (mem_places hq).2
    obtain ⟨k, rfl⟩ := Nat.exists_eq_add_of_lt hlt
    have hk : k + 1 < s.pattern.length := by omega
    obtain ⟨b, hb, hsame⟩ := standsAt_getElem? hearlier hk
    obtain ⟨b', hb', hsame'⟩ := standsAt_getElem? hstands (i := 0) (by omega)
    obtain ⟨d, hd, hsamed⟩ := standsAt_getElem? hearlier (i := k) (by omega)
    rw [Nat.add_zero] at hb'
    obtain rfl : b = b' := Option.some.inj (hb.symm.trans hb')
    have hinside := List.all_eq_true.mp hover (k + 1) (List.mem_range.mpr hk)
    rw [List.getElem?_eq_getElem hk, List.getElem?_eq_getElem (by omega : 0 < s.pattern.length),
      Nat.add_sub_cancel, List.getElem?_eq_getElem (by omega : k < s.pattern.length)] at hinside
    simp only [Option.map_some, same_toLower hsame, same_toLower hsame', isAlphanum_toLower,
      Option.any_some] at hinside
    have halnum : d.isAlphanum = true := by
      rw [← isAlphanum_toLower, ← same_toLower hsamed, isAlphanum_toLower]
      simpa using hinside
    rw [isWordBoundary, show q + k + 1 - 1 = q + k from rfl, hd, Option.any_some, halnum] at hbefore
    exact absurd hbefore (by simp)

end

/-! ## What is counted -/

instance (b : FencedBlock) (p : ℕ) : Decidable (b.Holds p) := inferInstanceAs (Decidable (_ ∧ _))

instance (text : Str) (p : ℕ) : Decidable (InDiagram text p) :=
  inferInstanceAs (Decidable (∃ ob ∈ fencedBlocks text 0, _))

instance (text : Str) (p : ℕ) : Decidable (InBlanked text p) :=
  inferInstanceAs (Decidable (∃ ob ∈ fencedBlocks text 0, _))

/-- What stands at `p` is about this project. -/
def aboutProject (readme : Str) (p : ℕ) : Bool :=
  !isNonProjectContext (scanned readme) (annotateReadmeLines (scanned readme)) p

/-- The spellings of a language. -/
def spellingsOf (language : Str) : List Spelling :=
  spellings.filter fun s => s.canonical = language

/-- The positions among those of the README. -/
def positions (readme : Str) (q : ℕ → Bool) : Finset ℕ :=
  (Finset.range readme.length).filter fun p => q p = true

/-- **The mentions of a language.** -/
def mentionsOf (readme language : Str) : Finset ℕ :=
  positions readme fun p => !decide (InDiagram readme p) && aboutProject readme p &&
    (spellingsOf language).any fun s => s.asWord readme p

/-- The places where a substring counter finds its spelling inside a longer word. -/
def embedded (readme : Str) (s : Spelling) : Finset ℕ :=
  positions readme fun p => s.mode = .substring &&
    decide (p ∈ places s.mode.same s.pattern (scanned readme) 0) &&
    !s.asWord (scanned readme) p && aboutProject readme p

def bareC : Spelling := ⟨str "C", str "cpp", str "C", .wordCaseSensitive⟩

def cLanguage : Spelling := ⟨str "c language", str "cpp", str "C", .substring⟩

/-- The places of `C language` with a capital letter. -/
def twofold (readme : Str) : Finset ℕ :=
  positions readme fun p => bareC.asWord (scanned readme) p &&
    cLanguage.asWord (scanned readme) p && aboutProject readme p

/-- The words that a word counter leaves out for the `+` or `#` behind them. -/
def dropped (readme : Str) (s : Spelling) : Finset ℕ :=
  positions readme fun p => s.mode = .word && s.asWord (scanned readme) p &&
    suffixed (scanned readme) (p + s.pattern.length) && aboutProject readme p

/-- The mentions in bodies that are blanked although their tag is not `mermaid`. -/
def hidden (readme language : Str) : Finset ℕ :=
  positions readme fun p => decide (InBlanked readme p) && !decide (InDiagram readme p) &&
    aboutProject readme p && (spellingsOf language).any fun s => s.asWord readme p

/-- What is counted without being a mention. -/
def invented (readme language : Str) : ℕ :=
  ((spellingsOf language).map fun s => (embedded readme s).card).sum +
    if language = str "cpp" then (twofold readme).card else 0

/-- The mentions that are not counted. -/
def lost (readme language : Str) : ℕ :=
  (hidden readme language).card + ((spellingsOf language).map fun s => (dropped readme s).card).sum

/-- The counts of the spellings of a language together. -/
def counted (readme language : Str) : ℕ :=
  ((spellingsOf language).map fun s => countClaimMentions (scanned readme)
    (annotateReadmeLines (scanned readme)) s.pattern s.mode).sum

/-! ## Two spellings at one place -/

/-- Where the one spelling stands as a word, the other one does not. -/
def Spelling.excludes (s t : Spelling) : Bool :=
  ((s.pattern.zip t.pattern).any fun ab => ab.1.toLower ≠ ab.2.toLower) ||
    ((t.pattern[s.pattern.length]?).any fun c =>
      c.toLower.isAlphanum && (s.pattern.getLast?).any Char.isAlphanum ||
        s.mode = .wordCaseSensitive && (c = '+' || c = '#'))

variable {s : Spelling}

theorem stands_apart {t : Spelling} {p : ℕ}
    (hdiffer : ((s.pattern.zip t.pattern).any fun ab => ab.1.toLower ≠ ab.2.toLower) = true)
    (hs : standsAt s.mode.same s.pattern text p = true) :
    standsAt t.mode.same t.pattern text p = false := by
  refine Bool.eq_false_iff.mpr fun ht => ?_
  obtain ⟨ab, hab, hne⟩ := List.any_eq_true.mp hdiffer
  obtain ⟨i, hi, rfl⟩ := List.getElem_of_mem hab
  rw [List.length_zip] at hi
  rw [List.getElem_zip, decide_eq_true_eq] at hne
  obtain ⟨b, hb, hsame⟩ := standsAt_getElem? hs (i := i) (by omega)
  obtain ⟨b', hb', hsame'⟩ := standsAt_getElem? ht (i := i) (by omega)
  obtain rfl : b = b' := Option.some.inj (hb.symm.trans hb')
  exact hne ((same_toLower hsame).trans (same_toLower hsame').symm)

theorem same_toLower_iff_sign {mode : MatchMode} {a b : Char} (h : mode.same a b = true) :
    (a = '+' ∨ a = '#') ↔ (b = '+' ∨ b = '#') := by
  have hlower := same_toLower h
  rw [← SqlText.toLower_eq_iff (c := a) (d := '+') (by decide),
    ← SqlText.toLower_eq_iff (c := a) (d := '#') (by decide), hlower,
    SqlText.toLower_eq_iff (by decide), SqlText.toLower_eq_iff (by decide)]

theorem asWord_excludes {t : Spelling} (h : s.excludes t = true) {p : ℕ}
    (hs : s.asWord text p = true) : t.asWord text p = false := by
  simp only [Spelling.asWord, Bool.and_eq_true] at hs
  obtain ⟨⟨⟨hstands, _⟩, hafter⟩, hsuffix⟩ := hs
  refine Bool.eq_false_iff.mpr fun ht => ?_
  simp only [Spelling.asWord, Bool.and_eq_true] at ht
  rw [Spelling.excludes, Bool.or_eq_true] at h
  rcases h with hdiffer | hlonger
  · rw [stands_apart hdiffer hstands] at ht
    exact Bool.false_ne_true ht.1.1.1
  · -- the other spelling goes on behind the end of this one
    rw [Option.any_eq_true] at hlonger
    obtain ⟨c, hc, hlonger⟩ := hlonger
    obtain ⟨hi, rfl⟩ := List.getElem?_eq_some_iff.mp hc
    obtain ⟨b, hb, hsame⟩ := standsAt_getElem? ht.1.1.1 hi
    rw [Bool.or_eq_true, Bool.and_eq_true, Bool.and_eq_true, same_toLower hsame,
      isAlphanum_toLower] at hlonger
    rcases hlonger with ⟨halnum, hlast⟩ | ⟨hmode, hsign⟩
    · rw [hlast, isWordBoundaryAfter, hb, Option.any_some, halnum] at hafter
      exact absurd hafter (by decide)
    · have hb' : b = '+' ∨ b = '#' := by
        rw [← same_toLower_iff_sign hsame]
        simpa using hsign
      rw [suffixed, hb, Option.any_some] at hsuffix
      rcases hb' with rfl | rfl <;> simp_all

/-- A list with at most one element that satisfies a property has one exactly when some does. -/
theorem countP_of_pairwise {α : Type} {q : α → Bool} {l : List α}
    (h : l.Pairwise fun a b => q a = true → q b = false) :
    l.countP q = (l.any q).toNat := by
  induction l with
  | nil => rfl
  | cons a l ih =>
      rw [List.pairwise_cons] at h
      rw [List.countP_cons, List.any_cons, ih h.2]
      cases hq : q a with
      | false => simp
      | true =>
          have hnone : l.any q = false := List.any_eq_false.mpr fun b hb => by
            rw [h.1 b hb hq]
            decide
          simp [hnone]

/-- The spellings of C++ that the table has. -/
def tableSpellings : List Spelling :=
  [⟨str "c++", str "cpp", str "C++", .substring⟩, ⟨str "cpp", str "cpp", str "C++", .substring⟩,
    ⟨str "cxx", str "cpp", str "C++", .substring⟩]

theorem spellingsOf_cpp : spellingsOf (str "cpp") = tableSpellings ++ [cLanguage, bareC] := by
  decide

theorem spellings_exclude : ∀ s ∈ spellings, ∀ t ∈ spellings, s ≠ t → s.canonical = t.canonical →
    s.canonical ≠ str "cpp" → s.excludes t = true ∨ t.excludes s = true := by
  decide

theorem spellings_nodup : spellings.Nodup := by
  decide

theorem cpp_exclude : ∀ s ∈ tableSpellings, (s.excludes cLanguage = true) ∧
    (bareC.excludes s = true) ∧ ∀ t ∈ tableSpellings, s ≠ t → s.excludes t = true := by
  decide

theorem asWord_excludes_or {t : Spelling} (h : s.excludes t = true ∨ t.excludes s = true) {p : ℕ}
    (hs : s.asWord text p = true) : t.asWord text p = false := by
  rcases h with h | h
  · exact asWord_excludes h hs
  · refine Bool.eq_false_iff.mpr fun ht => ?_
    rw [asWord_excludes h ht] at hs
    exact Bool.false_ne_true hs

/-- **One spelling of a language stands at one place**, but for `C language`, which counts twice. -/
theorem countP_asWord (text language : Str) (p : ℕ) :
    (spellingsOf language).countP (fun s => s.asWord text p) =
      ((spellingsOf language).any fun s => s.asWord text p).toNat +
        (if language = str "cpp" then
          (bareC.asWord text p && cLanguage.asWord text p).toNat else 0) := by
  by_cases hcpp : language = str "cpp"
  · rw [if_pos hcpp, hcpp, spellingsOf_cpp]
    have htable : (tableSpellings ++ [cLanguage]).countP (fun s => s.asWord text p) =
        ((tableSpellings ++ [cLanguage]).any fun s => s.asWord text p).toNat := by
      refine countP_of_pairwise ?_
      refine List.pairwise_append.mpr ⟨?_, List.pairwise_singleton _ _, ?_⟩
      · refine List.Pairwise.imp_of_mem (fun hs ht hne => ?_)
          (show tableSpellings.Nodup by decide)
        exact asWord_excludes ((cpp_exclude _ hs).2.2 _ ht hne)
      · intro s hs t ht
        rw [List.mem_singleton.mp ht]
        exact asWord_excludes (cpp_exclude s hs).1
    have hsplit : tableSpellings ++ [cLanguage, bareC] =
        (tableSpellings ++ [cLanguage]) ++ [bareC] := by rw [List.append_assoc]; rfl
    rw [hsplit, List.countP_append, htable, List.any_append, List.countP_singleton,
      List.any_append]
    cases hbare : bareC.asWord text p with
    | false => simp [hbare]
    | true =>
        have hnone : (tableSpellings.any fun s => s.asWord text p) = false :=
          List.any_eq_false.mpr fun s hs => by
            rw [asWord_excludes (cpp_exclude s hs).2.1 hbare]
            decide
        simp [hbare, hnone, Nat.add_comm]
  · rw [if_neg hcpp, Nat.add_zero]
    refine countP_of_pairwise ?_
    refine List.Pairwise.imp_of_mem (fun {s t} hs ht hne => ?_) (spellings_nodup.filter _)
    simp only [spellingsOf, List.mem_filter, decide_eq_true_eq] at hs ht
    exact asWord_excludes_or (spellings_exclude s hs.1 t ht.1 hne (hs.2.trans ht.2.symm)
      (hs.2 ▸ hcpp))

/-! ## The sums -/

theorem card_positions (readme : Str) (q : ℕ → Bool) :
    (positions readme q).card = ∑ p ∈ Finset.range readme.length, (q p).toNat := by
  rw [positions, Finset.card_filter]
  refine Finset.sum_congr rfl fun p _ => ?_
  cases q p <;> rfl

theorem sum_card_positions (readme : Str) (l : List Spelling) (q : Spelling → ℕ → Bool) :
    (l.map fun s => (positions readme (q s)).card).sum =
      ∑ p ∈ Finset.range readme.length, l.countP fun s => q s p := by
  induction l with
  | nil => simp
  | cons s l ih =>
      rw [List.map_cons, List.sum_cons, ih, card_positions, ← Finset.sum_add_distrib]
      refine Finset.sum_congr rfl fun p _ => ?_
      rw [List.countP_cons, Nat.add_comm]
      cases q s p <;> rfl

/-- A counter counts at most the positions of the text. -/
theorem countClaimMentions_eq (readme : Str) (s : Spelling) (hne : s.pattern ≠ []) :
    countClaimMentions (scanned readme) (annotateReadmeLines (scanned readme)) s.pattern s.mode =
      (positions readme fun p => decide (p ∈ places s.mode.same s.pattern (scanned readme) 0) &&
        counts (scanned readme) (annotateReadmeLines (scanned readme)) s.pattern s.mode
          p).card := by
  rw [countClaimMentions, countFrom_eq, List.countP_eq_length_filter]
  rw [← List.toFinset_card_of_nodup ((places_nodup hne 0).filter _)]
  congr 1
  ext p
  simp only [positions, List.mem_toFinset, List.mem_filter, Finset.mem_filter, Finset.mem_range,
    Bool.and_eq_true, decide_eq_true_eq]
  constructor
  · intro ⟨hp, hcounts⟩
    have hbound := (standsAt_bound hne (mem_places hp).2).2
    rw [length_scanned] at hbound
    exact ⟨hbound, hp, hcounts⟩
  · exact fun h => h.2

theorem spellings_ends : ∀ s ∈ spellings, s.mode = .substring ∨
    (s.pattern.getLast?).any Char.isAlphanum = true := by
  decide

/-- The places with word borders are the words. -/
theorem places_borders (hs : s ∈ spellings) (hmode : s.mode ≠ .substring) (text : Str) (p : ℕ) :
    (decide (p ∈ places s.mode.same s.pattern text 0) && isWordBoundary text p &&
        isWordBoundaryAfter text (p + s.pattern.length) &&
        (s.mode != .wordCaseSensitive || !suffixed text (p + s.pattern.length))) =
      s.asWord text p := by
  have hlast := (spellings_ends s hs).resolve_left hmode
  rw [Bool.eq_iff_iff]
  constructor
  · intro h
    simp only [Bool.and_eq_true, decide_eq_true_eq] at h
    obtain ⟨⟨⟨hmem, hbefore⟩, hafter⟩, hsuffix⟩ := h
    rw [Spelling.asWord, (mem_places hmem).2, hbefore, hafter, hsuffix, hlast]
    rfl
  · intro h
    have hmem := mem_places_of_asWord (spellings_apart s hs) (spellings_overlapsInside s hs) h
    simp only [Spelling.asWord, Bool.and_eq_true, hlast, Bool.not_true, Bool.false_or] at h
    rw [decide_eq_true hmem, h.1.1.2, h.1.2, h.2]
    rfl

/-- What a counter counts at `p`, and what it leaves out, against the words. -/
theorem counted_at (hs : s ∈ spellings) (p : ℕ) :
    (decide (p ∈ places s.mode.same s.pattern (scanned readme) 0) &&
        counts (scanned readme) (annotateReadmeLines (scanned readme)) s.pattern s.mode p).toNat +
      (decide (s.mode = .word) && s.asWord (scanned readme) p &&
        suffixed (scanned readme) (p + s.pattern.length) && aboutProject readme p).toNat =
    (s.asWord (scanned readme) p && aboutProject readme p).toNat +
      (decide (s.mode = .substring) &&
        decide (p ∈ places s.mode.same s.pattern (scanned readme) 0) &&
        !s.asWord (scanned readme) p && aboutProject readme p).toNat := by
  cases hmode : s.mode with
  | substring =>
      have hword := @mem_places_of_asWord s (scanned readme) p (spellings_apart s hs)
        (spellings_overlapsInside s hs)
      rw [hmode] at hword
      simp only [counts, aboutProject]
      cases hctx : isNonProjectContext (scanned readme)
          (annotateReadmeLines (scanned readme)) p with
      | true => simp
      | false =>
          cases has : s.asWord (scanned readme) p with
          | true => simp [hword has]
          | false => simp
  | word =>
      have hborders := places_borders hs (by rw [hmode]; decide) (scanned readme) p
      rw [hmode] at hborders
      rw [← hborders]
      simp only [counts, aboutProject]
      cases hsuffix : suffixed (scanned readme) (p + s.pattern.length) with
      | true | false =>
          rw [suffixed] at hsuffix
          simp [hsuffix, Bool.and_assoc]
  | wordCaseSensitive =>
      have hborders := places_borders hs (by rw [hmode]; decide) (scanned readme) p
      rw [hmode] at hborders
      rw [← hborders]
      simp only [counts, aboutProject, suffixed]
      cases hsuffix : ((scanned readme)[p + s.pattern.length]?).any
          (fun c => c = '+' || c = '#') with
      | true => simp
      | false => simp [Bool.and_assoc]

theorem asWord_scanned_eq (hs : s ∈ spellings) (p : ℕ) :
    s.asWord (scanned readme) p = (!decide (InBlanked readme p) && s.asWord readme p) := by
  rw [Bool.eq_iff_iff, asWord_scanned (spellings_apart s hs)]
  simp

/-- The words of the scan at `p` against the mentions. -/
theorem words_at (readme language : Str) (p : ℕ) :
    (spellingsOf language).countP
        (fun s => s.asWord (scanned readme) p && aboutProject readme p) +
      (decide (InBlanked readme p) && !decide (InDiagram readme p) && aboutProject readme p &&
        (spellingsOf language).any fun s => s.asWord readme p).toNat =
    (!decide (InDiagram readme p) && aboutProject readme p &&
        (spellingsOf language).any fun s => s.asWord readme p).toNat +
      (if language = str "cpp" then (bareC.asWord (scanned readme) p &&
        cLanguage.asWord (scanned readme) p && aboutProject readme p).toNat else 0) := by
  cases hctx : aboutProject readme p with
  | false => simp
  | true =>
      simp only [Bool.and_true]
      by_cases hin : InBlanked readme p
      · have hnone : ∀ s ∈ spellings, s.asWord (scanned readme) p = false := by
          intro s hs
          rw [asWord_scanned_eq hs, decide_eq_true hin]
          rfl
        have hcount : (spellingsOf language).countP (fun s => s.asWord (scanned readme) p) = 0 :=
          List.countP_eq_zero.mpr fun s hs => by
            rw [hnone s (List.mem_filter.mp hs).1]
            decide
        rw [hcount, hnone bareC (by decide), Nat.zero_add, decide_eq_true hin]
        simp
      · have hdiagram : ¬ InDiagram readme p := fun h => hin h.blanked
        have hany : ((spellingsOf language).any fun s => s.asWord (scanned readme) p) =
            (spellingsOf language).any fun s => s.asWord readme p := by
          rw [Bool.eq_iff_iff, List.any_eq_true, List.any_eq_true]
          refine exists_congr fun s => and_congr_right fun hs => ?_
          rw [asWord_scanned_eq (List.mem_filter.mp hs).1, decide_eq_false hin]
          rfl
        rw [countP_asWord, hany]
        simp [hin, hdiagram]

theorem countP_add_eq {l : List Spelling} {f g h k : Spelling → Bool}
    (heq : ∀ s ∈ l, (f s).toNat + (g s).toNat = (h s).toNat + (k s).toNat) :
    l.countP f + l.countP g = l.countP h + l.countP k := by
  induction l with
  | nil => rfl
  | cons s l ih =>
      have hs := heq s List.mem_cons_self
      have hrest := ih fun t ht => heq t (List.mem_cons_of_mem s ht)
      simp only [List.countP_cons]
      have hnat : ∀ b : Bool, (if b = true then 1 else 0) = b.toNat := fun b => by cases b <;> rfl
      simp only [hnat]
      omega

/-- **What is counted for a language is its mentions, up to what is invented and what is lost.** -/
theorem counted_add_lost (readme language : Str) :
    counted readme language + lost readme language =
      (mentionsOf readme language).card + invented readme language := by
  have hcounted : counted readme language = ∑ p ∈ Finset.range readme.length,
      (spellingsOf language).countP fun s =>
        decide (p ∈ places s.mode.same s.pattern (scanned readme) 0) &&
          counts (scanned readme) (annotateReadmeLines (scanned readme)) s.pattern s.mode p := by
    rw [← sum_card_positions readme (spellingsOf language) fun s p =>
      decide (p ∈ places s.mode.same s.pattern (scanned readme) 0) &&
        counts (scanned readme) (annotateReadmeLines (scanned readme)) s.pattern s.mode p]
    refine congrArg List.sum (List.map_congr_left fun s hs => ?_)
    exact countClaimMentions_eq readme s
      (Spelling.apart_ne_nil (spellings_apart s (List.mem_filter.mp hs).1))
  have htwofold : (if language = str "cpp" then (twofold readme).card else 0) =
      ∑ p ∈ Finset.range readme.length, if language = str "cpp" then
        (bareC.asWord (scanned readme) p && cLanguage.asWord (scanned readme) p &&
          aboutProject readme p).toNat else 0 := by
    by_cases hcpp : language = str "cpp"
    · simp only [if_pos hcpp]
      exact card_positions readme _
    · simp [if_neg hcpp]
  rw [lost, invented, hcounted, htwofold]
  simp only [embedded, dropped, sum_card_positions]
  simp only [hidden, mentionsOf, card_positions, ← Finset.sum_add_distrib]
  refine Finset.sum_congr rfl fun p _ => ?_
  have hsplit := countP_add_eq fun s hs => @counted_at readme s
    (List.mem_filter.mp (show s ∈ spellings.filter (fun s => s.canonical = language) from hs)).1 p
  have hwords := words_at readme language p
  rw [spellingsOf] at hwords ⊢
  omega

/-! ## The claims -/

/-- The mentions in the claims of a language. -/
def claimedMentions (language : Str) (result : List LanguageClaim) : ℕ :=
  ((result.filter fun c => c.canonical = language).map LanguageClaim.mentionCount).sum

theorem claimedMentions_cons (language : Str) (c : LanguageClaim) (result : List LanguageClaim) :
    claimedMentions language (c :: result) =
      (if c.canonical = language then c.mentionCount else 0) + claimedMentions language result := by
  by_cases h : c.canonical = language
  · simp [claimedMentions, h]
  · simp [claimedMentions, h]

theorem claimedMentions_addMentions (language canonical display : Str) (count : ℕ)
    (result : List LanguageClaim) :
    claimedMentions language (addMentions canonical display count result) =
      claimedMentions language result + if canonical = language then count else 0 := by
  induction result with
  | nil =>
      rw [addMentions, claimedMentions_cons]
      exact Nat.add_comm _ _
  | cons c rest ih =>
      rw [addMentions]
      by_cases hc : c.canonical = canonical
      · rw [if_pos hc, claimedMentions_cons, claimedMentions_cons]
        simp only [hc]
        split_ifs <;> omega
      · rw [if_neg hc, claimedMentions_cons, claimedMentions_cons, ih, Nat.add_assoc]

theorem claimedMentions_claimSpelling (language canonical display : Str) (count : ℕ)
    (result : List LanguageClaim) :
    claimedMentions language (claimSpelling canonical display count result) =
      claimedMentions language result + if canonical = language then count else 0 := by
  rw [claimSpelling]
  by_cases hzero : count = 0
  · rw [if_pos hzero, hzero, ite_self, Nat.add_zero]
  · rw [if_neg hzero, claimedMentions_addMentions]

/-- Every claim has a mention. -/
def Mentioned (result : List LanguageClaim) : Prop := ∀ c ∈ result, 0 < c.mentionCount

theorem Mentioned.claimSpelling (h : Mentioned result) (canonical display : Str) (count : ℕ) :
    Mentioned (claimSpelling canonical display count result) := by
  rw [Verify.claimSpelling]
  by_cases hzero : count = 0
  · rwa [if_pos hzero]
  · rw [if_neg hzero]
    induction result with
    | nil =>
        intro c hc
        rw [List.mem_singleton.mp hc]
        exact Nat.pos_of_ne_zero hzero
    | cons d rest ih =>
        have hd := h d List.mem_cons_self
        have hrest : Mentioned rest := fun c hc => h c (List.mem_cons_of_mem d hc)
        rw [addMentions]
        by_cases hcanonical : d.canonical = canonical
        · rw [if_pos hcanonical]
          exact List.forall_mem_cons.mpr ⟨Nat.lt_of_lt_of_le hd (Nat.le_add_right _ _), hrest⟩
        · rw [if_neg hcanonical]
          exact List.forall_mem_cons.mpr ⟨hd, ih hrest⟩

theorem claimedMentions_of_mem (hdistinct : Distinct result) {c : LanguageClaim} (hc : c ∈ result) :
    claimedMentions c.canonical result = c.mentionCount := by
  induction result with
  | nil => exact absurd hc List.not_mem_nil
  | cons d rest ih =>
      rw [Distinct, List.map_cons, List.nodup_cons] at hdistinct
      rw [claimedMentions_cons]
      rcases List.mem_cons.mp hc with rfl | hc
      · have hnone : (rest.filter fun d => d.canonical = c.canonical) = [] := by
          refine List.filter_eq_nil_iff.mpr fun d hd heq => hdistinct.1 ?_
          exact List.mem_map.mpr ⟨d, hd, decide_eq_true_eq.mp heq⟩
        rw [if_pos rfl, claimedMentions, hnone]
        rfl
      · have hne : d.canonical ≠ c.canonical := fun heq =>
          hdistinct.1 (List.mem_map.mpr ⟨c, hc, heq.symm⟩)
        rw [if_neg hne, Nat.zero_add, ih hdistinct.2 hc]

/-- A claim tells all mentions of its language. -/
theorem exists_claim_iff (hdistinct : Distinct result) (hmentioned : Mentioned result)
    (language : Str) (n : ℕ) :
    (∃ c ∈ result, c.canonical = language ∧ c.mentionCount = n) ↔
      0 < n ∧ n = claimedMentions language result := by
  constructor
  · rintro ⟨c, hc, rfl, rfl⟩
    exact ⟨hmentioned c hc, (claimedMentions_of_mem hdistinct hc).symm⟩
  · rintro ⟨hpos, rfl⟩
    have hsome : (result.filter fun c => c.canonical = language) ≠ [] := by
      intro hnil
      rw [claimedMentions, hnil] at hpos
      exact absurd hpos (by decide)
    obtain ⟨c, hc⟩ := List.exists_mem_of_ne_nil _ hsome
    obtain ⟨hmem, hlanguage⟩ := List.mem_filter.mp hc
    rw [decide_eq_true_eq] at hlanguage
    refine ⟨c, hmem, hlanguage, ?_⟩
    rw [← hlanguage, claimedMentions_of_mem hdistinct hmem]

theorem extractLanguageClaims_eq (readme : Str) (hne : readme ≠ []) :
    extractLanguageClaims readme = spellings.foldl (fun result s =>
      claimSpelling s.canonical s.display (countClaimMentions (scanned readme)
        (annotateReadmeLines (scanned readme)) s.pattern s.mode) result) [] := by
  rw [extractLanguageClaims, if_neg hne, spellings, List.foldl_append, List.foldl_map]
  rfl

theorem foldl_claimSpelling (count : Spelling → ℕ) (language : Str) (l : List Spelling)
    (h : Mentioned result) :
    claimedMentions language (l.foldl (fun result s =>
        claimSpelling s.canonical s.display (count s) result) result) =
      claimedMentions language result + ((l.filter fun s => s.canonical = language).map count).sum ∧
    Mentioned (l.foldl (fun result s =>
      claimSpelling s.canonical s.display (count s) result) result) := by
  induction l generalizing result with
  | nil => exact ⟨rfl, h⟩
  | cons s l ih =>
      obtain ⟨hsum, hmentioned⟩ := ih (h.claimSpelling s.canonical s.display (count s))
      refine ⟨?_, hmentioned⟩
      rw [List.foldl_cons, hsum, claimedMentions_claimSpelling, List.filter_cons]
      by_cases hs : s.canonical = language
      · simp [hs, Nat.add_assoc]
      · simp [hs]

/-- **The claims tell what has been counted.** -/
theorem mem_extractLanguageClaims_iff (readme language : Str) (n : ℕ) :
    (∃ c ∈ extractLanguageClaims readme, c.canonical = language ∧ c.mentionCount = n) ↔
      0 < n ∧ n = counted readme language := by
  by_cases hne : readme = []
  · subst hne
    have hzero : counted [] language = 0 := by
      have hall : ∀ s ∈ spellingsOf language, countClaimMentions (scanned [])
          (annotateReadmeLines (scanned [])) s.pattern s.mode = 0 := by
        intro s hs
        rw [countClaimMentions_eq [] s
          (Spelling.apart_ne_nil (spellings_apart s (List.mem_filter.mp hs).1))]
        rfl
      rw [counted, List.map_congr_left hall]
      simp
    rw [hzero]
    refine iff_of_false ?_ (by omega)
    rintro ⟨c, hc, _⟩
    exact List.not_mem_nil hc
  · have hnone : Mentioned [] := fun c hc => absurd hc List.not_mem_nil
    obtain ⟨hsum, hmentioned⟩ := foldl_claimSpelling (fun s => countClaimMentions (scanned readme)
      (annotateReadmeLines (scanned readme)) s.pattern s.mode) language spellings hnone
    rw [← extractLanguageClaims_eq readme hne] at hsum hmentioned
    rw [exists_claim_iff (extractLanguageClaims_distinct readme) hmentioned, hsum]
    rw [show claimedMentions language [] = 0 from rfl, Nat.zero_add]
    rfl

/-- A language is claimed exactly when it is mentioned, with the number of its mentions. -/
def ExactClaims (readme : Str) : Prop :=
  ∀ language n, (∃ c ∈ extractLanguageClaims readme,
      c.canonical = language ∧ c.mentionCount = n) ↔
    0 < n ∧ n = (mentionsOf readme language).card

/-- **The claims are exact exactly when for every language as many mentions are lost as are
    invented.** -/
theorem language_claims_iff (readme : Str) :
    ExactClaims readme ↔ ∀ language, invented readme language = lost readme language := by
  constructor
  · intro h language
    have hsum := counted_add_lost readme language
    have hcounted : counted readme language = (mentionsOf readme language).card := by
      have hn := fun n => (mem_extractLanguageClaims_iff readme language n).symm.trans
        (h language n)
      have h1 := hn (counted readme language)
      have h2 := hn (mentionsOf readme language).card
      omega
    omega
  · intro h language n
    have hsum := counted_add_lost readme language
    have hbalance := h language
    have hcounted : counted readme language = (mentionsOf readme language).card := by omega
    rw [mem_extractLanguageClaims_iff, hcounted]

/-- The word `trust` is counted for a mention of Rust. -/
theorem trust_is_not_rust : ¬ ExactClaims (str "Built on trust.") := by
  intro h
  have hclaim : ∃ c ∈ extractLanguageClaims (str "Built on trust."),
      c.canonical = str "rust" ∧ c.mentionCount = 1 := by
    refine ⟨⟨str "rust", str "Rust", 1⟩, ?_, rfl, rfl⟩
    decide +kernel
  have hnone : (mentionsOf (str "Built on trust.") (str "rust")).card = 0 := by decide +kernel
  have hcount := ((h (str "rust") 1).mp hclaim).2
  rw [hnone] at hcount
  exact absurd hcount (by decide)

end CodeScope.Verify
