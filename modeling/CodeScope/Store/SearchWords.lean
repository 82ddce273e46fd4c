import CodeScope.Library.Text

/-! # The words of an identifier

`splitIdentifierWords` cuts a text in front of capitals and at `_ - . / : ( )` and lowers it. It
looks for an acronym in the piece that it has lowered already, so that every capital starts a piece
of its own, and a space is a character like any other to it. -/

namespace CodeScope.Store

open Text

/-- The characters that close a piece and belong to none. -/
def isIdentSeparator (c : Char) : Bool :=
  c = '_' || c = '-' || c = '.' || c = '/' || c = ':' || c = '(' || c = ')'

def flushPiece (cur : Str) : List Str := if cur = [] then [] else [cur]

/-- The loop of `splitIdentifierWords`, with the piece that is open. -/
def splitFrom (cur : Str) : Str → List Str
  | [] => flushPiece cur
  | c :: rest =>
    if isIdentSeparator c then flushPiece cur ++ splitFrom [] rest
    else if c.isUpper && !cur.isEmpty
        -- `prev` is the last character of the open piece, which is lowered
        && (!cur.getLast?.any Char.isUpper || rest.head?.any Char.isLower) then
      flushPiece cur ++ splitFrom [c.toLower] rest
    else splitFrom (cur ++ [c.toLower]) rest

def splitIdentifierWords (word : Str) : List Str := splitFrom [] word

/-! ## One character of the loop -/

/-- Every character of the open piece has been lowered. -/
def Lowered (cur : Str) : Prop := ∀ c ∈ cur, c.isUpper = false

theorem lowered_nil : Lowered [] := by simp [Lowered]

theorem Lowered.snoc {cur : Str} (h : Lowered cur) (c : Char) : Lowered (cur ++ [c.toLower]) := by
  intro d hd
  rcases List.mem_append.mp hd with hd | hd
  · exact h d hd
  · rw [List.mem_singleton.mp hd, Char.isUpper_toLower_eq_false]

theorem lowered_single (c : Char) : Lowered [c.toLower] := lowered_nil.snoc c

theorem Lowered.getLast {cur : Str} (h : Lowered cur) : cur.getLast?.any Char.isUpper = false := by
  cases hl : cur.getLast? with
  | none => rfl
  | some c => exact h c (List.mem_of_getLast? hl)

variable {c : Char} {rest : Str}

theorem isIdentSeparator_of_isUpper (h : c.isUpper) : isIdentSeparator c = false := by
  by_contra hsep
  simp only [isIdentSeparator, Bool.not_eq_false, Bool.or_eq_true, decide_eq_true_eq] at hsep
  rcases hsep with (((((rfl | rfl) | rfl) | rfl) | rfl) | rfl) | rfl <;> exact absurd h (by decide)

theorem splitFrom_separator (h : isIdentSeparator c = true) (cur rest : Str) :
    splitFrom cur (c :: rest) = flushPiece cur ++ splitFrom [] rest := by
  rw [splitFrom, if_pos h]

theorem splitFrom_upper {cur : Str} (hcur : Lowered cur) (h : c.isUpper) (rest : Str) :
    splitFrom cur (c :: rest) = flushPiece cur ++ splitFrom [c.toLower] rest := by
  rw [splitFrom, if_neg (by rw [isIdentSeparator_of_isUpper h]; decide)]
  by_cases hempty : cur = []
  · subst hempty
    rw [if_neg (by simp)]
    rfl
  · rw [if_pos]
    simp [h, hempty, hcur.getLast]

/-- What neither closes nor opens a piece. -/
def isQuiet (c : Char) : Bool := !isIdentSeparator c && !c.isUpper

theorem splitFrom_quiet (h : isQuiet c = true) (cur rest : Str) :
    splitFrom cur (c :: rest) = splitFrom (cur ++ [c]) rest := by
  simp only [isQuiet, Bool.and_eq_true, Bool.not_eq_true'] at h
  rw [splitFrom, if_neg (by rw [h.1]; decide), if_neg (by simp [h.2]),
    Char.toLower_eq_of_not_isUpper (by simp [h.2])]

theorem splitFrom_run {run : Str} (h : ∀ c ∈ run, isQuiet c = true) (cur rest : Str) :
    splitFrom cur (run ++ rest) = splitFrom (cur ++ run) rest := by
  induction run generalizing cur with
  | nil => rw [List.nil_append, List.append_nil]
  | cons c run ih =>
      rw [List.cons_append, splitFrom_quiet (h c List.mem_cons_self),
        ih (fun d hd => h d (List.mem_cons_of_mem _ hd)), List.append_assoc, List.singleton_append]

/-- The places at which the open piece is closed, whatever it is. -/
def isBoundary (rest : Str) : Bool :=
  match rest with
  | [] => true
  | c :: _ => isIdentSeparator c || c.isUpper

theorem splitFrom_boundary {cur : Str} (hcur : Lowered cur) (h : isBoundary rest = true) :
    splitFrom cur rest = flushPiece cur ++ splitFrom [] rest := by
  cases rest with
  | nil => simp [splitFrom, flushPiece]
  | cons c rest =>
      rcases Bool.or_eq_true _ _ |>.mp h with hsep | hup
      · rw [splitFrom_separator hsep, splitFrom_separator hsep]
        simp [flushPiece]
      · rw [splitFrom_upper hcur hup, splitFrom_upper lowered_nil hup]
        simp [flushPiece]

/-- **Nothing but separators is lost.** -/
theorem flatten_splitFrom (cur text : Str) :
    (splitFrom cur text).flatten = cur ++ lower (text.filter (!isIdentSeparator ·)) := by
  have hflush : ∀ cur : Str, (flushPiece cur).flatten = cur := by
    intro cur
    by_cases h : cur = [] <;> simp [flushPiece, h]
  fun_induction splitFrom cur text with
  | case1 cur => simp [hflush, lower]
  | case2 cur c rest hsep ih => simp [hflush, ih, hsep]
  | case3 cur c rest hsep hcut ih => simp [hflush, ih, hsep, lower]
  | case4 cur c rest hsep hcut ih => simp [ih, hsep, lower]

/-! ## Words and styles -/

/-- A lower-case word: a letter, then letters or digits. -/
structure PlainWord where
  first : Char
  more : Str
  first_lower : first.isLower = true
  more_ok : ∀ c ∈ more, c.isLower = true ∨ c.isDigit = true

/-- A word of lower-case letters. -/
def PlainWord.ofLetters (first : Char) (more : Str)
    (h : (first :: more).all Char.isLower = true) : PlainWord where
  first := first
  more := more
  first_lower := List.all_eq_true.mp h first List.mem_cons_self
  more_ok := fun c hc => Or.inl (List.all_eq_true.mp h c (List.mem_cons_of_mem _ hc))

def PlainWord.text (w : PlainWord) : Str := w.first :: w.more

/-- At least two capitals. -/
structure Acronym where
  text : Str
  two : 2 ≤ text.length
  capitals : ∀ c ∈ text, c.isUpper = true

inductive IdentWord where
  | plain (w : PlainWord)
  | acronym (a : Acronym)

inductive IdentStyle where
  | camel
  | pascal
  | snake
  | kebab
  | dotted
  | path
  | colons
deriving DecidableEq

/-- What stands between two words, in the styles that do not mark a word by a capital. -/
def IdentStyle.separator : IdentStyle → Str
  | .camel | .pascal => []
  | .snake => ['_']
  | .kebab => ['-']
  | .dotted => ['.']
  | .path => ['/']
  | .colons => [':', ':']

/-- The styles that mark a word by its capital. -/
def IdentStyle.isCapitalised (s : IdentStyle) : Bool := s = .camel || s = .pascal

def IdentWord.isAcronym : IdentWord → Bool
  | .plain _ => false
  | .acronym _ => true

/-- The word as it is written where nothing marks it. -/
def IdentWord.text : IdentWord → Str
  | .plain w => w.text
  | .acronym a => a.text

/-- The word with a capital in front. -/
def IdentWord.capitalised : IdentWord → Str
  | .plain w => w.first.toUpper :: w.more
  | .acronym a => a.text

/-- The token that stands for the word. -/
def IdentWord.token (w : IdentWord) : Str := lower w.text

/-- The words joined in a style. -/
def spell (style : IdentStyle) (words : List IdentWord) : Str :=
  match style, words with
  | _, [] => []
  | .camel, w :: ws => w.text ++ ws.flatMap IdentWord.capitalised
  | .pascal, w :: ws => (w :: ws).flatMap IdentWord.capitalised
  | style, w :: ws => w.text ++ ws.flatMap fun v => style.separator ++ v.text

/-- Words joined in one style. In the capitalised styles an acronym is followed by a capitalised
    word or by the end. -/
structure Identifier where
  style : IdentStyle
  words : List IdentWord
  words_ne_nil : words ≠ []
  apart : style.isCapitalised → words.IsChain fun v w => v.isAcronym → w.isAcronym = false

def Identifier.text (i : Identifier) : Str := spell i.style i.words

/-- Identifiers with a space between them. -/
def identifierText (ids : List Identifier) : Str := [' '].intercalate (ids.map Identifier.text)

/-- The words of the identifiers, lowered, in order. -/
def identifierTokens (ids : List Identifier) : List Str :=
  (ids.flatMap Identifier.words).map IdentWord.token

/-! ## What the loop makes of a word -/

/-- The pieces of a word: an acronym falls apart into its letters. -/
def IdentWord.pieces : IdentWord → List Str
  | .plain w => [w.text]
  | .acronym a => a.text.map fun c => [c.toLower]

theorem isQuiet_of_lower_or_digit (h : c.isLower = true ∨ c.isDigit = true) : isQuiet c = true := by
  have hup : c.isUpper = false := by
    rcases h with h | h
    · exact Bool.eq_false_iff.mpr (Char.not_isUpper_of_isLower h)
    · simp only [Char.isDigit, Char.isUpper, Bool.and_eq_true, decide_eq_true_eq,
        UInt32.le_iff_toNat_le, decide_eq_false_iff_not] at h ⊢
      have h9 : '9'.val.toNat = 57 := rfl
      have hA : 'A'.val.toNat = 65 := rfl
      omega
  have hsep : isIdentSeparator c = false := by
    by_contra hsep
    simp only [isIdentSeparator, Bool.not_eq_false, Bool.or_eq_true, decide_eq_true_eq] at hsep
    rcases hsep with (((((rfl | rfl) | rfl) | rfl) | rfl) | rfl) | rfl <;> exact absurd h (by decide)
  simp [isQuiet, hup, hsep]

theorem PlainWord.quiet (w : PlainWord) : ∀ c ∈ w.text, isQuiet c = true := by
  intro c hc
  rcases List.mem_cons.mp hc with rfl | hc
  · exact isQuiet_of_lower_or_digit (Or.inl w.first_lower)
  · exact isQuiet_of_lower_or_digit (w.more_ok c hc)

theorem lowered_of_quiet {s : Str} (h : ∀ c ∈ s, isQuiet c = true) : Lowered s := by
  intro c hc
  have hq := h c hc
  simp only [isQuiet, Bool.and_eq_true, Bool.not_eq_true'] at hq
  exact hq.2

theorem splitFrom_plain (w : PlainWord) (h : isBoundary rest = true) :
    splitFrom w.text rest = w.text :: splitFrom [] rest := by
  rw [splitFrom_boundary (lowered_of_quiet w.quiet) h, flushPiece, if_neg (by simp [PlainWord.text])]
  rfl

/-- The letters of an acronym are pieces of their own. -/
theorem splitFrom_capitals {a : Str} (ha : ∀ c ∈ a, c.isUpper = true) (h : isBoundary rest = true) :
    splitFrom [] (a ++ rest) = a.map (fun c => [c.toLower]) ++ splitFrom [] rest := by
  induction a with
  | nil => rfl
  | cons c a ih =>
      have hmore : isBoundary (a ++ rest) = true := by
        cases a with
        | nil => exact h
        | cons d a =>
            show (isIdentSeparator d || d.isUpper) = true
            rw [ha d (by simp), Bool.or_true]
      rw [List.cons_append, splitFrom_upper lowered_nil (ha c List.mem_cons_self),
        splitFrom_boundary (lowered_single c) hmore,
        ih fun d hd => ha d (List.mem_cons_of_mem _ hd)]
      rfl

theorem splitFrom_text (w : IdentWord) (h : isBoundary rest = true) :
    splitFrom [] (w.text ++ rest) = w.pieces ++ splitFrom [] rest := by
  cases w with
  | plain w => exact (splitFrom_run w.quiet [] rest).trans (splitFrom_plain w h)
  | acronym a => exact splitFrom_capitals a.capitals h

theorem PlainWord.first_toUpper (w : PlainWord) : w.first.toUpper.isUpper = true := by
  rw [Char.isUpper_toUpper_eq_isAlpha, Char.isAlpha, w.first_lower, Bool.or_true]

theorem splitFrom_capitalised (w : IdentWord) (h : isBoundary rest = true) :
    splitFrom [] (w.capitalised ++ rest) = w.pieces ++ splitFrom [] rest := by
  cases w with
  | acronym a => exact splitFrom_capitals a.capitals h
  | plain w =>
      have hfirst : w.first.toUpper.toLower = w.first := by
        rw [Char.toLower_toUpper_eq_toLower,
          Char.toLower_eq_of_not_isUpper (Char.not_isUpper_of_isLower w.first_lower)]
      show splitFrom [] (w.first.toUpper :: (w.more ++ rest)) = w.text :: splitFrom [] rest
      rw [splitFrom_upper lowered_nil w.first_toUpper, hfirst,
        splitFrom_run fun c hc => w.quiet c (List.mem_cons_of_mem _ hc)]
      exact splitFrom_plain w h

/-! ## What it makes of an identifier -/

theorem isBoundary_capitalised (w : IdentWord) (rest : Str) :
    isBoundary (w.capitalised ++ rest) = true := by
  cases w with
  | plain w =>
      show (isIdentSeparator _ || w.first.toUpper.isUpper) = true
      rw [w.first_toUpper, Bool.or_true]
  | acronym a =>
      obtain ⟨text, two, capitals⟩ := a
      cases text with
      | nil => simp at two
      | cons c text =>
          show (isIdentSeparator c || c.isUpper) = true
          rw [capitals c List.mem_cons_self, Bool.or_true]

theorem isBoundary_flatMap {f : IdentWord → Str} (hf : ∀ w rest, isBoundary (f w ++ rest) = true)
    (ws : List IdentWord) : isBoundary (ws.flatMap f) = true := by
  cases ws with
  | nil => rfl
  | cons w ws => exact hf w _

theorem splitFrom_flatMap {f : IdentWord → Str}
    (hf : ∀ w rest, isBoundary (f w ++ rest) = true)
    (hread : ∀ w rest, isBoundary rest = true →
      splitFrom [] (f w ++ rest) = w.pieces ++ splitFrom [] rest) (ws : List IdentWord) :
    splitFrom [] (ws.flatMap f) = ws.flatMap IdentWord.pieces := by
  induction ws with
  | nil => rfl
  | cons w ws ih =>
      rw [List.flatMap_cons, hread w _ (isBoundary_flatMap hf ws), ih, List.flatMap_cons]

theorem IdentStyle.separator_shape (s : IdentStyle) (h : s.isCapitalised = false) :
    s.separator ≠ [] ∧ ∀ c ∈ s.separator, isIdentSeparator c = true := by
  cases s <;> first | exact absurd h (by decide) | simp [separator, isIdentSeparator]

theorem splitFrom_separators {sep : Str} (h : ∀ c ∈ sep, isIdentSeparator c = true) (rest : Str) :
    splitFrom [] (sep ++ rest) = splitFrom [] rest := by
  induction sep with
  | nil => rfl
  | cons c sep ih =>
      rw [List.cons_append, splitFrom_separator (h c List.mem_cons_self),
        ih fun d hd => h d (List.mem_cons_of_mem _ hd)]
      rfl

theorem isBoundary_separator {sep : Str} (hne : sep ≠ [])
    (h : ∀ c ∈ sep, isIdentSeparator c = true) (rest : Str) : isBoundary (sep ++ rest) = true := by
  cases sep with
  | nil => exact absurd rfl hne
  | cons c sep =>
      show (isIdentSeparator c || c.isUpper) = true
      rw [h c List.mem_cons_self, Bool.true_or]

theorem split_first {f : IdentWord → Str} (hf : ∀ w rest, isBoundary (f w ++ rest) = true)
    (hread : ∀ w rest, isBoundary rest = true →
      splitFrom [] (f w ++ rest) = w.pieces ++ splitFrom [] rest) (w : IdentWord)
    (ws : List IdentWord) :
    splitIdentifierWords (w.text ++ ws.flatMap f) = (w :: ws).flatMap IdentWord.pieces := by
  rw [splitIdentifierWords, splitFrom_text w (isBoundary_flatMap hf ws),
    splitFrom_flatMap hf hread, List.flatMap_cons]

theorem split_delimited {s : IdentStyle} (h : s.isCapitalised = false) (w : IdentWord)
    (ws : List IdentWord) :
    splitIdentifierWords (w.text ++ ws.flatMap fun v => s.separator ++ v.text) =
      (w :: ws).flatMap IdentWord.pieces := by
  obtain ⟨hne, hsep⟩ := s.separator_shape h
  refine split_first (fun v rest => ?_) (fun v rest hrest => ?_) w ws
  · rw [List.append_assoc]
    exact isBoundary_separator hne hsep _
  · rw [List.append_assoc, splitFrom_separators hsep]
    exact splitFrom_text v hrest

/-- **An identifier is read as the pieces of its words**, whatever its style. -/
theorem split_spell (style : IdentStyle) (words : List IdentWord) :
    splitIdentifierWords (spell style words) = words.flatMap IdentWord.pieces := by
  cases words with
  | nil => cases style <;> rfl
  | cons w ws =>
      cases style with
      | camel => exact split_first isBoundary_capitalised (fun _ _ => splitFrom_capitalised _) w ws
      | pascal =>
          exact splitFrom_flatMap isBoundary_capitalised (fun _ _ => splitFrom_capitalised _) _
      | snake => exact split_delimited (s := .snake) rfl w ws
      | kebab => exact split_delimited (s := .kebab) rfl w ws
      | dotted => exact split_delimited (s := .dotted) rfl w ws
      | path => exact split_delimited (s := .path) rfl w ws
      | colons => exact split_delimited (s := .colons) rfl w ws

/-! ## When the words are recovered -/

theorem IdentWord.text_no_space (w : IdentWord) : ' ' ∉ w.text := by
  intro h
  cases w with
  | plain w =>
      rcases List.mem_cons.mp h with h | h
      · exact absurd w.first_lower (by rw [← h]; decide)
      · rcases w.more_ok _ h with h | h <;> exact absurd h (by decide)
  | acronym a => exact absurd (a.capitals _ h) (by decide)

theorem toLower_ne_space (h : c ≠ ' ') : c.toLower ≠ ' ' := by
  intro heq
  by_cases hup : c.isUpper = true
  · have hl : c.toLower.isAlpha = true := by
      rw [Char.isAlpha_toLower_eq_isAlpha, Char.isAlpha, hup, Bool.true_or]
    rw [heq] at hl
    exact absurd hl (by decide)
  · rw [Char.toLower_eq_of_not_isUpper hup] at heq
    exact h heq

theorem token_no_space (w : IdentWord) : ' ' ∉ w.token := by
  intro h
  obtain ⟨c, hc, heq⟩ := List.mem_map.mp h
  exact toLower_ne_space (fun hs => w.text_no_space (hs ▸ hc)) heq

/-- **A space ends up inside a piece.** -/
theorem space_mem_pieces {text : Str} (h : ' ' ∈ text) :
    ∃ piece ∈ splitIdentifierWords text, ' ' ∈ piece := by
  rw [← List.mem_flatten, splitIdentifierWords, flatten_splitFrom, List.nil_append, lower]
  exact List.mem_map.mpr ⟨' ', List.mem_filter.mpr ⟨h, by decide⟩, by decide⟩

theorem pieces_length (w : IdentWord) :
    w.pieces.length = if w.isAcronym then w.text.length else 1 := by
  cases w with
  | plain w => rfl
  | acronym a =>
      show (a.text.map _).length = a.text.length
      rw [List.length_map]

theorem pieces_pos (w : IdentWord) : 1 ≤ w.pieces.length := by
  rw [pieces_length]
  cases w with
  | plain w => exact Nat.le_refl 1
  | acronym a => exact Nat.le_of_succ_le a.two

theorem pieces_of_plain {w : IdentWord} (h : w.isAcronym = false) : w.pieces = [w.token] := by
  cases w with
  | acronym a => exact absurd h (by simp [IdentWord.isAcronym])
  | plain w =>
      have hlow : lower w.text = w.text := by
        rw [lower, List.map_congr_left fun c hc =>
          Char.toLower_eq_of_not_isUpper (by rw [lowered_of_quiet w.quiet c hc]; decide), List.map_id']
      show [w.text] = [lower w.text]
      rw [hlow]

/-- The pieces of some words are as many as the words only when no word is an acronym. -/
theorem plain_of_pieces {ws : List IdentWord}
    (h : (ws.flatMap IdentWord.pieces).length = ws.length) : ∀ w ∈ ws, w.isAcronym = false := by
  have hle : ∀ vs : List IdentWord, vs.length ≤ (vs.flatMap IdentWord.pieces).length := by
    intro vs
    induction vs with
    | nil => exact Nat.le_refl 0
    | cons v vs ih =>
        have hv := pieces_pos v
        rw [List.flatMap_cons, List.length_append, List.length_cons]
        omega
  induction ws with
  | nil => intro w hw; exact absurd hw (List.not_mem_nil)
  | cons v ws ih =>
      rw [List.flatMap_cons, List.length_append, List.length_cons] at h
      have hrest := hle ws
      have hv := pieces_pos v
      intro w hw
      rcases List.mem_cons.mp hw with rfl | hw
      · cases w with
        | plain p => rfl
        | acronym a =>
            have htwo : 2 ≤ (IdentWord.acronym a).pieces.length := by
              rw [pieces_length]
              exact a.two
            omega
      · exact ih (by omega) w hw

theorem flatMap_pieces_of_plain {ws : List IdentWord} (h : ∀ w ∈ ws, w.isAcronym = false) :
    ws.flatMap IdentWord.pieces = ws.map IdentWord.token := by
  induction ws with
  | nil => rfl
  | cons w ws ih =>
      rw [List.flatMap_cons, pieces_of_plain (h w List.mem_cons_self),
        ih fun v hv => h v (List.mem_cons_of_mem _ hv)]
      rfl

theorem split_identifier_iff (i : Identifier) :
    splitIdentifierWords i.text = i.words.map IdentWord.token ↔
      ∀ w ∈ i.words, w.isAcronym = false := by
  rw [Identifier.text, split_spell]
  constructor
  · intro h
    exact plain_of_pieces (by rw [h, List.length_map])
  · exact flatMap_pieces_of_plain

theorem space_mem_identifierText (i j : Identifier) (ids : List Identifier) :
    ' ' ∈ identifierText (i :: j :: ids) := by
  simp [identifierText, List.intercalate]

theorem split_several_ne (i j : Identifier) (ids : List Identifier) :
    splitIdentifierWords (identifierText (i :: j :: ids)) ≠ identifierTokens (i :: j :: ids) := by
  intro h
  obtain ⟨piece, hmem, hspace⟩ := space_mem_pieces (space_mem_identifierText i j ids)
  rw [h] at hmem
  obtain ⟨w, _, rfl⟩ := List.mem_map.mp hmem
  exact token_no_space w hspace

/-- At most one identifier, and no acronym in it. -/
def OneIdentifierNoAcronym (ids : List Identifier) : Prop :=
  ids.length ≤ 1 ∧ ∀ i ∈ ids, ∀ w ∈ i.words, w.isAcronym = false

theorem split_identifiers_iff (ids : List Identifier) :
    splitIdentifierWords (identifierText ids) = identifierTokens ids ↔
      OneIdentifierNoAcronym ids := by
  rcases ids with _ | ⟨i, _ | ⟨j, ids⟩⟩
  · exact iff_of_true rfl ⟨Nat.zero_le 1, by simp⟩
  · have htext : identifierText [i] = i.text := by simp [identifierText, List.intercalate]
    have htokens : identifierTokens [i] = i.words.map IdentWord.token := by
      simp [identifierTokens]
    rw [htext, htokens, split_identifier_iff]
    simp [OneIdentifierNoAcronym]
  · exact iff_of_false (split_several_ne i j ids) fun h => by simpa using h.1

/-- The same words, each identifier in a style of its own choice. -/
def SameWords (ids ids' : List Identifier) : Prop :=
  ids.map Identifier.words = ids'.map Identifier.words

theorem SameWords.oneIdentifierNoAcronym {ids ids' : List Identifier} (h : SameWords ids ids')
    (hids : OneIdentifierNoAcronym ids) : OneIdentifierNoAcronym ids' := by
  refine ⟨?_, fun i hi w hw => ?_⟩
  · have hlen := congrArg List.length h
    rw [List.length_map, List.length_map] at hlen
    rw [← hlen]
    exact hids.1
  · have hmem : i.words ∈ ids.map Identifier.words := h ▸ List.mem_map_of_mem hi
    obtain ⟨j, hj, heq⟩ := List.mem_map.mp hmem
    exact hids.2 j hj w (heq ▸ hw)

theorem SameWords.identifierTokens {ids ids' : List Identifier} (h : SameWords ids ids') :
    identifierTokens ids = identifierTokens ids' := by
  rw [Store.identifierTokens, Store.identifierTokens, List.flatMap_def, List.flatMap_def, h]

/-- The words are recovered, and no other spelling of them gives other tokens. -/
def RecoversWords (ids : List Identifier) : Prop :=
  splitIdentifierWords (identifierText ids) = identifierTokens ids ∧
    ∀ ids', SameWords ids ids' →
      splitIdentifierWords (identifierText ids') = splitIdentifierWords (identifierText ids)

/-- **The words of a text are recovered exactly when it is one identifier without an acronym.** -/
theorem words_recovered_iff (ids : List Identifier) :
    RecoversWords ids ↔ OneIdentifierNoAcronym ids := by
  constructor
  · intro h
    exact (split_identifiers_iff ids).mp h.1
  · intro h
    have hsplit := (split_identifiers_iff ids).mpr h
    refine ⟨hsplit, fun ids' hsame => ?_⟩
    rw [(split_identifiers_iff ids').mpr (hsame.oneIdentifierNoAcronym h), hsplit,
      hsame.identifierTokens]

/-! ## The text of an entity -/

/-- The text that `buildVectorsFromGraph` splits for an entity. -/
def entityText (qualifiedName name : Str) : Str :=
  if name = [] then qualifiedName
  else if qualifiedName = [] then name
  else qualifiedName ++ ' ' :: name

/-- The identifier `store::open`. -/
def storeOpen : Identifier where
  style := .colons
  words := [.plain (.ofLetters 's' (str "tore") (by decide)),
    .plain (.ofLetters 'o' (str "pen") (by decide))]
  words_ne_nil := by simp
  apart := fun h => absurd h (by decide)

/-- The identifier `open`. -/
def openName : Identifier where
  style := .snake
  words := [.plain (.ofLetters 'o' (str "pen") (by decide))]
  words_ne_nil := by simp
  apart := fun h => absurd h (by decide)

/-- The two are read as `store` and `open open`. -/
theorem qualified_name_not_split :
    entityText (str "store::open") (str "open") = identifierText [storeOpen, openName] ∧
      splitIdentifierWords (entityText (str "store::open") (str "open")) =
        [str "store", str "open open"] ∧
      ¬ RecoversWords [storeOpen, openName] := by
  refine ⟨by decide, by decide, fun h => ?_⟩
  exact absurd h.1 (by decide)

example : splitIdentifierWords (str "findByLastName") =
    [str "find", str "by", str "last", str "name"] := by decide

example : splitIdentifierWords (str "JSONParser") =
    [str "j", str "s", str "o", str "n", str "parser"] := by decide

end CodeScope.Store
