import CodeScope.Library.Fts5
import CodeScope.Store.SearchWords

/-! # The full-text query of a search

`searchCode` writes every word of its query as a phrase and puts the identifier words it splits into
behind it, with an `OR` in front of each. Nothing keeps the alternatives of a word together: the
implicit AND between two words binds the last alternative of the first to the first alternative of
the second. -/

namespace CodeScope.Store

open Text Fts5

/-! ## The builder -/

/-- The parts that are written behind a word: not the empty ones, not the word itself, none
    twice. -/
def otherParts (unescaped : Str) (seenParts : List Str) : List Str → List Str
  | [] => []
  | part :: rest =>
    if part = [] ∨ part = unescaped then otherParts unescaped seenParts rest
    else if part ∈ seenParts then otherParts unescaped seenParts rest
    else part :: otherParts unescaped (part :: seenParts) rest

def clauseOf (word : Str) : Str :=
  let unescaped := word.filter (· ≠ '"')
  ['"'] ++ word ++ ['"'] ++
    (otherParts unescaped [] (splitIdentifierWords unescaped)).flatMap fun part =>
      str " OR \"" ++ part ++ ['"']

def closeWord (word : Str) : Str := if word = [] then [] else clauseOf word

/-- The loop over the query, with the word that is open, its quotes doubled. -/
def ftsQueryFrom (word : Str) : Str → Str
  | [] => closeWord word
  | c :: rest =>
    if c = ' ' then closeWord word ++ ' ' :: ftsQueryFrom [] rest
    else ftsQueryFrom (word ++ escapeChar c) rest

def ftsQuery (query : Str) : Str := ftsQueryFrom [] query

/-! ## What a query asks for -/

/-- The maximal runs of characters other than the space. -/
def queryWords (query : Str) : List Str := (segments ' ' query).filter (· ≠ [])

def withoutQuotes (word : Str) : Str := word.filter (· ≠ '"')

/-- The identifier words that a word splits into; a word that stays whole splits into none. -/
def identifierWords (word : Str) : List Str :=
  if splitIdentifierWords (withoutQuotes word) = [withoutQuotes word] then []
  else splitIdentifierWords (withoutQuotes word)

/-- The tokens of the indexed columns of a row of `code_fts`. -/
structure CodeRow where
  name : List Str
  qualifiedName : List Str
  filePath : List Str
  content : List Str

def CodeRow.columns (row : CodeRow) : Row :=
  [row.name, row.qualifiedName, row.filePath, row.content]

section

variable (tokens : Tokenizer)

/-- The row matches the word or one of the identifier words it splits into. -/
def MatchesWord (row : CodeRow) (word : Str) : Prop :=
  ∃ phrase ∈ word :: identifierWords word, matchesPhrase tokens row.columns phrase = true

/-- The query of `searchCode` for `query` is well formed and accepts the row. -/
def Finds (query : Str) (row : CodeRow) : Prop :=
  ∃ e, Fts5.read (ftsQuery query) = some e ∧ accepts tokens row.columns e = true

end

/-! ## The alternatives of a word -/

/-- The phrases that are written for a word. -/
def emitted (word : Str) : List Str :=
  word :: otherParts (withoutQuotes word) [] (splitIdentifierWords (withoutQuotes word))

theorem mem_otherParts {unescaped part : Str} {seenParts parts : List Str} :
    part ∈ otherParts unescaped seenParts parts ↔
      part ∈ parts ∧ part ≠ [] ∧ part ≠ unescaped ∧ part ∉ seenParts := by
  fun_induction otherParts unescaped seenParts parts with
  | case1 => simp
  | case2 seen p rest hskip ih =>
      rw [ih, List.mem_cons]
      constructor
      · tauto
      · rintro ⟨rfl | hmem, hne, hun, hseen⟩
        · tauto
        · tauto
  | case3 seen p rest hskip hin ih =>
      rw [ih, List.mem_cons]
      constructor
      · tauto
      · rintro ⟨rfl | hmem, hne, hun, hseen⟩
        · exact absurd hin hseen
        · tauto
  | case4 seen p rest hskip hin ih =>
      rw [List.mem_cons, ih, List.mem_cons, List.mem_cons]
      by_cases hp : part = p
      · subst hp
        tauto
      · tauto

theorem ne_nil_of_mem_splitFrom {cur text piece : Str} (h : piece ∈ splitFrom cur text) :
    piece ≠ [] := by
  have hflush : ∀ {cur : Str}, piece ∈ flushPiece cur → piece ≠ [] := by
    intro cur hmem
    by_cases hcur : cur = []
    · simp [flushPiece, hcur] at hmem
    · rw [flushPiece, if_neg hcur, List.mem_singleton] at hmem
      rwa [hmem]
  fun_induction splitFrom cur text with
  | case1 cur => exact hflush h
  | case2 cur c rest hsep ih | case3 cur c rest hsep hcut ih =>
      exact (List.mem_append.mp h).elim hflush ih
  | case4 cur c rest hsep hcut ih => exact ih h

/-- A text is one of its own pieces only when it is the only one. -/
theorem splitIdentifierWords_self {text : Str} (h : text ∈ splitIdentifierWords text) :
    splitIdentifierWords text = [text] := by
  have hne : ∀ piece ∈ splitIdentifierWords text, piece ≠ [] :=
    fun _ => ne_nil_of_mem_splitFrom
  have hflat : (splitIdentifierWords text).flatten.length ≤ text.length := by
    rw [splitIdentifierWords, flatten_splitFrom, List.nil_append, lower, List.length_map]
    exact List.length_filter_le _ _
  obtain ⟨front, back, hsplit⟩ := List.append_of_mem h
  rw [hsplit, List.flatten_append, List.flatten_cons, List.length_append, List.length_append]
    at hflat
  have hempty : ∀ {l : List Str}, (∀ piece ∈ l, piece ∈ splitIdentifierWords text) →
      l.flatten.length = 0 → l = [] := by
    intro l hl hzero
    cases l with
    | nil => rfl
    | cons p l =>
        have hp := List.length_pos_of_ne_nil (hne p (hl p List.mem_cons_self))
        rw [List.flatten_cons, List.length_append] at hzero
        omega
  have hfront : front = [] :=
    hempty (fun p hp => by rw [hsplit]; exact List.mem_append_left _ hp) (by omega)
  have hback : back = [] := hempty (fun p hp => by
    rw [hsplit]
    exact List.mem_append_right _ (List.mem_cons_of_mem _ hp)) (by omega)
  rw [hsplit, hfront, hback]
  rfl

/-- **What is written for a word is the word and the identifier words it splits into.** -/
theorem mem_emitted {word phrase : Str} :
    phrase ∈ emitted word ↔ phrase ∈ word :: identifierWords word := by
  rw [emitted, List.mem_cons, List.mem_cons, mem_otherParts, identifierWords]
  refine or_congr_right ?_
  by_cases hone : splitIdentifierWords (withoutQuotes word) = [withoutQuotes word]
  · rw [if_pos hone, hone, List.mem_singleton]
    exact iff_of_false (fun h => h.2.2.1 h.1) List.not_mem_nil
  · rw [if_neg hone]
    constructor
    · exact And.left
    · intro h
      refine ⟨h, ne_nil_of_mem_splitFrom h, fun heq => ?_, List.not_mem_nil⟩
      exact hone (splitIdentifierWords_self (heq ▸ h))

/-! ## The query as it is read -/

/-- The tokens of the alternatives of a word. -/
def wordTokens : List Str → List Token
  | [] => []
  | p :: ps => .phrase p :: ps.flatMap fun q => [.or, .phrase q]

theorem escape_of_no_quote {s : Str} (h : '"' ∉ s) : escape s = s := by
  induction s with
  | nil => rfl
  | cons c s ih =>
      rw [List.mem_cons, not_or] at h
      show escapeChar c ++ escape s = c :: s
      rw [escapeChar, if_neg (Ne.symm h.1), ih h.2]
      rfl

theorem filter_escape (s : Str) : (escape s).filter (· ≠ '"') = withoutQuotes s := by
  induction s with
  | nil => rfl
  | cons c s ih =>
      show (escapeChar c ++ escape s).filter (· ≠ '"') = _
      rw [List.filter_append, ih, withoutQuotes, withoutQuotes]
      by_cases hc : c = '"'
      · subst hc
        rfl
      · simp [escapeChar, hc]

/-- A quote that is dropped before a word is split is in none of its parts. -/
theorem no_quote_of_mem_split {s part : Str} (h : part ∈ splitIdentifierWords (withoutQuotes s)) :
    '"' ∉ part := by
  intro hq
  have hmem : '"' ∈ (splitIdentifierWords (withoutQuotes s)).flatten :=
    List.mem_flatten.mpr ⟨part, h, hq⟩
  rw [splitIdentifierWords, flatten_splitFrom, List.nil_append] at hmem
  obtain ⟨c, hc, hlow⟩ := List.mem_map.mp hmem
  have hne : c ≠ '"' := by
    have hin := (List.mem_filter.mp (List.mem_filter.mp hc).1).2
    simpa using hin
  by_cases hup : c.isUpper = true
  · have halpha : c.toLower.isAlpha = true := by
      rw [Char.isAlpha_toLower_eq_isAlpha, Char.isAlpha, hup, Bool.true_or]
    rw [hlow] at halpha
    exact absurd halpha (by decide)
  · rw [Char.toLower_eq_of_not_isUpper hup] at hlow
    exact hne hlow

theorem clauseOf_escape (word : Str) :
    clauseOf (escape word) = quote word ++
      (otherParts (withoutQuotes word) [] (splitIdentifierWords (withoutQuotes word))).flatMap
        fun part => str " OR " ++ quote part := by
  rw [clauseOf]
  simp only [filter_escape]
  congr 1
  refine List.flatMap_congr fun part hpart => ?_
  have hquote := escape_of_no_quote (no_quote_of_mem_split (mem_otherParts.mp hpart).1)
  rw [quote, hquote]
  rfl

theorem lexFrom_closing_alternatives (p : Str) (ps : List Str) (rest : Str) :
    lexFrom (.closing p) ((ps.flatMap fun q => str " OR " ++ quote q) ++ ' ' :: rest) =
      (lexFrom .between rest).map fun ts => wordTokens (p :: ps) ++ ts := by
  induction ps generalizing p with
  | nil => exact lexFrom_closing_space p rest
  | cons q ps ih =>
      rw [List.flatMap_cons, List.append_assoc, lexFrom_closing_or, ih, Option.map_map]
      rfl

theorem lexFrom_closing_end (p : Str) (ps : List Str) :
    lexFrom (.closing p) (ps.flatMap fun q => str " OR " ++ quote q) =
      some (wordTokens (p :: ps)) := by
  induction ps generalizing p with
  | nil => rfl
  | cons q ps ih =>
      rw [List.flatMap_cons, lexFrom_closing_or, ih]
      rfl

theorem lexFrom_clause (word rest : Str) :
    lexFrom .between (clauseOf (escape word) ++ ' ' :: rest) =
      (lexFrom .between rest).map fun ts => wordTokens (emitted word) ++ ts := by
  rw [clauseOf_escape, List.append_assoc, lexFrom_quote]
  exact lexFrom_closing_alternatives word _ rest

theorem lexFrom_clause_end (word : Str) :
    lexFrom .between (clauseOf (escape word)) = some (wordTokens (emitted word)) := by
  rw [clauseOf_escape, lexFrom_quote]
  exact lexFrom_closing_end word _

theorem queryWords_of_no_space {word : Str} (h : ' ' ∉ word) :
    queryWords word = if word = [] then [] else [word] := by
  have hone := @segments_intercalate ' ' [word] (by simp) (by simpa using h)
  rw [List.intercalate_singleton] at hone
  rw [queryWords, hone]
  by_cases hne : word = [] <;> simp [hne]

theorem queryWords_append_space (a b : Str) :
    queryWords (a ++ ' ' :: b) = queryWords a ++ queryWords b := by
  rw [queryWords, segments_append_sep, List.filter_append]
  rfl

theorem escape_eq_nil {word : Str} : escape word = [] ↔ word = [] := by
  cases word with
  | nil => exact iff_of_true rfl rfl
  | cons c word =>
      refine iff_of_false (fun h => ?_) (List.cons_ne_nil _ _)
      have hchar : escapeChar c = [] := (List.append_eq_nil_iff.mp h).1
      by_cases hc : c = '"'
      · rw [escapeChar, if_pos hc] at hchar
        exact absurd hchar (by simp)
      · rw [escapeChar, if_neg hc] at hchar
        exact absurd hchar (by simp)

theorem lex_ftsQueryFrom (word query : Str) (h : ' ' ∉ word) :
    lexFrom .between (ftsQueryFrom (escape word) query) =
      some ((queryWords (word ++ query)).flatMap fun w => wordTokens (emitted w)) := by
  induction query generalizing word with
  | nil =>
      rw [List.append_nil, queryWords_of_no_space h, ftsQueryFrom, closeWord]
      simp only [escape_eq_nil]
      by_cases hword : word = []
      · rw [if_pos hword, if_pos hword]
        rfl
      · rw [if_neg hword, if_neg hword, lexFrom_clause_end, List.flatMap_singleton]
  | cons c query ih =>
      rw [ftsQueryFrom]
      by_cases hc : c = ' '
      · subst hc
        have hrest := ih [] (by simp)
        rw [List.nil_append] at hrest
        rw [if_pos rfl, queryWords_append_space, queryWords_of_no_space h, closeWord,
          List.flatMap_append]
        simp only [escape_eq_nil]
        by_cases hword : word = []
        · rw [if_pos hword, if_pos hword]
          exact hrest
        · rw [if_neg hword, if_neg hword, lexFrom_clause, List.flatMap_singleton]
          show (lexFrom .between (ftsQueryFrom (escape []) query)).map _ = _
          rw [hrest]
          rfl
      · have hesc : escape word ++ escapeChar c = escape (word ++ [c]) := by
          rw [escape_append]
          simp [escape]
        rw [if_neg hc, hesc, ih _ (by simpa [h] using Ne.symm hc), List.append_assoc]
        rfl

/-- **The tokens of the query are the alternatives of its words, one after the other.** -/
theorem lex_ftsQuery (query : Str) :
    lex (ftsQuery query) = some ((queryWords query).flatMap fun w => wordTokens (emitted w)) :=
  lex_ftsQueryFrom [] query (by simp)

/-! ## The groups that the implicit AND makes -/

/-- The alternatives of a word in front of the groups of the words behind it: the last alternative
    joins the first group, the others stand alone. -/
def weave : List Str → List (List Str) → List (List Str)
  | [], groups => groups
  | [p], g :: groups => (p :: g) :: groups
  | [p], [] => [[p]]
  | p :: q :: ps, groups => [p] :: weave (q :: ps) groups

/-- The groups of phrases that stand side by side, for the alternatives of each word. -/
def groups (words : List (List Str)) : List (List Str) := words.foldr weave [[]]

theorem groups_cons (ps : List Str) (words : List (List Str)) :
    groups (ps :: words) = weave ps (groups words) := rfl

theorem weave_ne_nil {gs : List (List Str)} (h : gs ≠ []) (ps : List Str) : weave ps gs ≠ [] := by
  fun_cases weave ps gs with
  | case1 => exact h
  | case2 => simp
  | case3 => simp
  | case4 => simp

theorem groups_ne_nil (words : List (List Str)) : groups words ≠ [] := by
  induction words with
  | nil => simp [groups]
  | cons ps words ih => exact weave_ne_nil ih ps

theorem stretches_wordTokens {ps : List Str} {ts : List Token} {gs : List (List Str)}
    (hne : gs ≠ []) (hts : stretches .or ts = gs.map fun g => g.map .phrase) :
    stretches .or (wordTokens ps ++ ts) = (weave ps gs).map fun g => g.map .phrase := by
  obtain ⟨g, gs, rfl⟩ := List.exists_cons_of_ne_nil hne
  cases ps with
  | nil => exact hts
  | cons p ps =>
      induction ps generalizing p with
      | nil => exact stretches_cons_ne (by simp) hts
      | cons q ps ih =>
          show stretches .or (.phrase p :: .or :: (wordTokens (q :: ps) ++ ts)) = _
          rw [stretches_cons_ne (by simp) (stretches_cons_op _ _), ih q]
          rfl

theorem stretches_words (words : List (List Str)) :
    stretches .or (words.flatMap wordTokens) = (groups words).map fun g => g.map .phrase := by
  induction words with
  | nil => rfl
  | cons ps words ih =>
      rw [List.flatMap_cons]
      exact stretches_wordTokens (groups_ne_nil words) ih

theorem weave_no_empty {ps : List Str} (hps : ps ≠ []) {g : List Str} {gs : List (List Str)}
    (hgs : ∀ h ∈ gs, h ≠ []) : ∀ h ∈ weave ps (g :: gs), h ≠ [] := by
  obtain ⟨p, ps, rfl⟩ := List.exists_cons_of_ne_nil hps
  induction ps generalizing p with
  | nil =>
      intro h hh
      rcases List.mem_cons.mp hh with rfl | hh
      · exact List.cons_ne_nil _ _
      · exact hgs h hh
  | cons q ps ih =>
      intro h hh
      rcases List.mem_cons.mp hh with rfl | hh
      · exact List.cons_ne_nil _ _
      · exact ih q (by simp) h hh

theorem groups_no_empty {words : List (List Str)} (hne : words ≠ [])
    (hwords : ∀ ps ∈ words, ps ≠ []) : ∀ g ∈ groups words, g ≠ [] := by
  induction words with
  | nil => exact absurd rfl hne
  | cons ps words ih =>
      rw [groups_cons]
      obtain ⟨g, gs, hgs⟩ := List.exists_cons_of_ne_nil (groups_ne_nil words)
      rw [hgs]
      refine weave_no_empty (hwords ps List.mem_cons_self) fun h hh => ?_
      cases words with
      | nil =>
          simp only [groups, List.foldr_nil, List.cons.injEq] at hgs
          exact absurd hh (by simp [← hgs.2])
      | cons qs words =>
          exact ih (by simp) (fun qs' hqs' => hwords qs' (List.mem_cons_of_mem _ hqs')) h
            (hgs ▸ List.mem_cons_of_mem _ hh)

/-- The groups that `searchCode` makes of a query. -/
def queryGroups (query : Str) : List (List Str) := groups ((queryWords query).map emitted)

theorem queryGroups_no_empty {query : Str} (h : queryWords query ≠ []) :
    ∀ g ∈ queryGroups query, g ≠ [] := by
  refine groups_no_empty (by simpa using h) fun ps hps => ?_
  obtain ⟨w, _, rfl⟩ := List.mem_map.mp hps
  exact List.cons_ne_nil _ _

/-- **A query with a word is well formed and accepts what one of its groups accepts.** -/
theorem read_ftsQuery {query : Str} (h : queryWords query ≠ []) :
    Fts5.read (ftsQuery query) = some ((queryGroups query).map fun g => [[g]]) := by
  rw [Fts5.read, lex_ftsQuery]
  have hts : (queryWords query).flatMap (fun w => wordTokens (emitted w)) =
      ((queryWords query).map emitted).flatMap wordTokens := by
    rw [List.flatMap_map]
  rw [hts]
  exact parse_chains (stretches_words _) (queryGroups_no_empty h)

theorem read_of_no_words {query : Str} (h : queryWords query = []) :
    Fts5.read (ftsQuery query) = none := by
  rw [Fts5.read, lex_ftsQuery, h]
  rfl

section

variable {tokens : Tokenizer}

theorem finds_iff {query : Str} {row : CodeRow} :
    Finds tokens query row ↔ queryWords query ≠ [] ∧
      ∃ g ∈ queryGroups query, acceptsChain tokens row.columns g = true := by
  by_cases h : queryWords query = []
  · refine iff_of_false (fun ⟨e, he, _⟩ => ?_) fun hne => hne.1 h
    rw [read_of_no_words h] at he
    exact absurd he (by simp)
  · rw [Finds, read_ftsQuery h]
    simp only [Option.some.injEq, exists_eq_left', accepts_chains, List.any_eq_true]
    exact (and_iff_right h).symm

theorem acceptsChain_iff {row : Row} {g : List Str} :
    acceptsChain tokens row g = true ↔
      (∃ p ∈ g, tokens p ≠ []) ∧ ∀ p ∈ g, tokens p ≠ [] → matchesPhrase tokens row p = true := by
  show (decide (g.filter (tokens · ≠ []) ≠ []) &&
    (g.filter (tokens · ≠ [])).all (matchesPhrase tokens row)) = true ↔ _
  rw [Bool.and_eq_true, decide_eq_true_eq, List.all_eq_true]
  refine and_congr ?_ ?_
  · rw [ne_eq, List.filter_eq_nil_iff]
    simp
  · simp only [List.mem_filter, decide_eq_true_eq, and_imp]

end

/-! ## What is found against what is asked for -/

section

variable {tokens : Tokenizer}

theorem tokens_ne_nil_of_matches {row : Row} {p : Str} (h : matchesPhrase tokens row p = true) :
    tokens p ≠ [] := by
  rw [matchesPhrase, Bool.and_eq_true, decide_eq_true_eq] at h
  exact h.1

/-- An alternative that is matched stands alone, or it joins the first group. -/
theorem exists_mem_weave {matched : Str → Prop} {ps : List Str} {gs : List (List Str)}
    {g : List Str} {p : Str} (hp : p ∈ ps) (hmatched : matched p) (hg : g ∈ gs)
    (hall : ∀ q ∈ g, matched q) : ∃ g' ∈ weave ps gs, ∀ q ∈ g', matched q := by
  fun_induction weave ps gs with
  | case1 gs => exact absurd hp List.not_mem_nil
  | case2 q first gs =>
      rw [List.mem_singleton] at hp
      subst hp
      rcases List.mem_cons.mp hg with rfl | hg
      · exact ⟨_, List.mem_cons_self, by simpa [hmatched] using hall⟩
      · exact ⟨g, List.mem_cons_of_mem _ hg, hall⟩
  | case3 q => exact absurd hg List.not_mem_nil
  | case4 q r ps gs ih =>
      rcases List.mem_cons.mp hp with rfl | hp
      · exact ⟨[p], List.mem_cons_self, by simpa using hmatched⟩
      · obtain ⟨g', hg', hall'⟩ := ih hp hg
        exact ⟨g', List.mem_cons_of_mem _ hg', hall'⟩

theorem exists_group_of_matches {matched : Str → Prop} {words : List (List Str)}
    (h : ∀ ps ∈ words, ∃ p ∈ ps, matched p) : ∃ g ∈ groups words, ∀ p ∈ g, matched p := by
  induction words with
  | nil => exact ⟨[], by simp [groups], by simp⟩
  | cons ps words ih =>
      obtain ⟨g, hg, hall⟩ := ih fun qs hqs => h qs (List.mem_cons_of_mem _ hqs)
      obtain ⟨p, hp, hmatched⟩ := h ps List.mem_cons_self
      exact exists_mem_weave hp hmatched hg hall

/-- **No row that is asked for is missed.** -/
theorem finds_of_matchesWords {query : Str} (hne : queryWords query ≠ []) {row : CodeRow}
    (h : ∀ w ∈ queryWords query, MatchesWord tokens row w) : Finds tokens query row := by
  refine finds_iff.mpr ⟨hne, ?_⟩
  have hwords : ∀ ps ∈ (queryWords query).map emitted,
      ∃ p ∈ ps, matchesPhrase tokens row.columns p = true := by
    intro ps hps
    obtain ⟨w, hw, rfl⟩ := List.mem_map.mp hps
    obtain ⟨p, hp, hmatch⟩ := h w hw
    exact ⟨p, mem_emitted.mpr hp, hmatch⟩
  obtain ⟨g, hg, hall⟩ := exists_group_of_matches hwords
  refine ⟨g, hg, acceptsChain_iff.mpr ⟨?_, fun p hp _ => hall p hp⟩⟩
  obtain ⟨p, hp⟩ := List.exists_mem_of_ne_nil g (queryGroups_no_empty hne g hg)
  exact ⟨p, hp, tokens_ne_nil_of_matches (hall p hp)⟩

/-- The row whose content is the phrases of a group and no more. -/
def spreadRow (tokens : Tokenizer) (sep : Str) (g : List Str) : CodeRow where
  name := []
  qualifiedName := []
  filePath := []
  content := spread tokens sep g

theorem matches_spreadRow {sep p : Str} (hsep : sep ∉ tokens p) (g : List Str) :
    matchesPhrase tokens (spreadRow tokens sep g).columns p = true ↔
      tokens p ≠ [] ∧ ∃ q ∈ g, tokens p <:+: tokens q := by
  rw [matchesPhrase, Bool.and_eq_true, decide_eq_true_eq]
  refine and_congr_right fun hne => ?_
  rw [← infix_spread tokens hne hsep]
  simp [CodeRow.columns, spreadRow, hne]

/-- Every group with a token in it has, for every word, one of its alternatives. -/
def EveryGroupMeetsEveryWord (tokens : Tokenizer) (query : Str) : Prop :=
  ∀ g ∈ queryGroups query, (∃ p ∈ g, tokens p ≠ []) →
    ∀ w ∈ queryWords query, ∃ p ∈ w :: identifierWords w, tokens p ≠ [] ∧
      ∃ q ∈ g, tokens p <:+: tokens q

theorem matchesWords_of_finds {query : Str} (h : EveryGroupMeetsEveryWord tokens query)
    {row : CodeRow} (hfinds : Finds tokens query row) :
    ∀ w ∈ queryWords query, MatchesWord tokens row w := by
  intro w hw
  obtain ⟨_, g, hg, haccepts⟩ := finds_iff.mp hfinds
  obtain ⟨hsome, hall⟩ := acceptsChain_iff.mp haccepts
  obtain ⟨p, hp, hne, q, hq, hstretch⟩ := h g hg hsome w hw
  refine ⟨p, hp, ?_⟩
  have hqne : tokens q ≠ [] := fun hnil => hne (List.infix_nil.mp (hnil ▸ hstretch))
  have hmatch := hall q hq hqne
  rw [matchesPhrase, Bool.and_eq_true, decide_eq_true_eq, List.any_eq_true] at hmatch ⊢
  obtain ⟨_, column, hcolumn, hin⟩ := hmatch
  exact ⟨hne, column, hcolumn, decide_eq_true (hstretch.trans (of_decide_eq_true hin))⟩

theorem meets_of_matchesWords {query : Str}
    (h : ∀ row, Finds tokens query row → ∀ w ∈ queryWords query, MatchesWord tokens row w) :
    EveryGroupMeetsEveryWord tokens query := by
  intro g hg hsome w hw
  obtain ⟨sep, hsep⟩ := exists_apart tokens (g ++ (w :: identifierWords w))
  have haccepts : acceptsChain tokens (spreadRow tokens sep g).columns g = true := by
    refine acceptsChain_iff.mpr ⟨hsome, fun p hp hne => ?_⟩
    exact (matches_spreadRow (hsep p (List.mem_append_left _ hp)) g).mpr
      ⟨hne, p, hp, List.infix_rfl⟩
  have hfinds : Finds tokens query (spreadRow tokens sep g) :=
    finds_iff.mpr ⟨List.ne_nil_of_mem hw, g, hg, haccepts⟩
  obtain ⟨p, hp, hmatch⟩ := h _ hfinds w hw
  exact ⟨p, hp, (matches_spreadRow (hsep p (List.mem_append_right _ hp)) g).mp hmatch⟩

variable (tokens)

/-- The query is well formed and accepts the rows that match each of its words, and no row that a
    shorter query with a word in it does not accept. -/
def EveryWordIsMandatory (query : Str) : Prop :=
  (∃ e, Fts5.read (ftsQuery query) = some e ∧ ∀ row : CodeRow,
      accepts tokens row.columns e = true ↔ ∀ w ∈ queryWords query, MatchesWord tokens row w) ∧
    ∀ shorter more, query = shorter ++ ' ' :: more → queryWords shorter ≠ [] →
      ∀ row, Finds tokens query row → Finds tokens shorter row

/-- **Every word of a query is mandatory exactly when there is one and every group of phrases that
    the implicit AND makes meets every word.** -/
theorem query_expansion_iff (query : Str) :
    EveryWordIsMandatory tokens query ↔
      queryWords query ≠ [] ∧ EveryGroupMeetsEveryWord tokens query := by
  constructor
  · intro ⟨⟨e, he, hrows⟩, _⟩
    refine ⟨fun hnone => ?_, meets_of_matchesWords fun row ⟨e', he', haccepts⟩ => ?_⟩
    · rw [read_of_no_words hnone] at he
      exact absurd he (by simp)
    · rw [he, Option.some.injEq] at he'
      exact (hrows row).mp (he' ▸ haccepts)
  · intro ⟨hne, hmeets⟩
    refine ⟨⟨_, read_ftsQuery hne, fun row => ?_⟩, ?_⟩
    · have hfinds : Finds tokens query row ↔ accepts tokens row.columns
          ((queryGroups query).map fun g => [[g]]) = true := by
        rw [Finds, read_ftsQuery hne]
        simp
      rw [← hfinds]
      exact ⟨matchesWords_of_finds hmeets, finds_of_matchesWords hne⟩
    · rintro shorter more rfl hshorter row hfinds
      refine finds_of_matchesWords hshorter fun w hw => matchesWords_of_finds hmeets hfinds w ?_
      rw [queryWords_append_space]
      exact List.mem_append_left _ hw

variable {tokens}

/-! ## A query that loses a word -/

/-- The words of an ASCII text, as `unicode61` makes them. -/
def asciiTokensFrom (cur : Str) : Str → List Str
  | [] => flushPiece cur
  | c :: rest =>
    if c.isAlphanum then asciiTokensFrom (cur ++ [c.toLower]) rest
    else flushPiece cur ++ asciiTokensFrom [] rest

def asciiTokens : Tokenizer := asciiTokensFrom []

/-- A row whose name is `user`. -/
def userRow : CodeRow where
  name := [str "user"]
  qualifiedName := [str "user"]
  filePath := []
  content := []

theorem second_word_not_mandatory :
    ftsQuery (str "userName load") = str "\"userName\" OR \"user\" OR \"name\" \"load\"" ∧
      ¬ EveryWordIsMandatory asciiTokens (str "userName load") := by
  refine ⟨by decide, fun ⟨⟨e, he, hrows⟩, _⟩ => ?_⟩
  have hread : Fts5.read (ftsQuery (str "userName load")) =
      some [[[[str "userName"]]], [[[str "user"]]], [[[str "name", str "load"]]]] := by decide
  rw [hread, Option.some.injEq] at he
  subst he
  have hfound := (hrows userRow).mp (by decide) (str "load") (by decide)
  obtain ⟨p, hp, hmatch⟩ := hfound
  have hload : p = str "load" := by
    have hwords : identifierWords (str "load") = [] := by decide
    rw [hwords] at hp
    exact List.mem_singleton.mp hp
  rw [hload] at hmatch
  exact absurd hmatch (by decide)

end

end CodeScope.Store
