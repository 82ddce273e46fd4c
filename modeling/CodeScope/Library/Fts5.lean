import CodeScope.Library.Text

/-! # FTS5 queries

A query is text: strings in double quotes and barewords are phrases, `AND`, `OR` and `NOT` are
operators, and phrases side by side are an implicit AND, which binds tighter than `NOT`, `NOT`
tighter than `AND`, `AND` tighter than `OR`. Punctuation outside of a string starts the constructs
that are left out here (columns, groups, `NEAR`, beginnings of words).

A row has the tokens of its columns. A phrase matches it when the tokens of the phrase stand side by
side in one of the columns. -/

namespace Fts5

open Text

/-! ## The reader -/

inductive Token where
  | phrase (text : Str)
  | or
  | and
  | not
deriving DecidableEq, Repr

def isSpace (c : Char) : Bool := c = ' ' || c = '\t' || c = '\n' || c = '\r'

/-- The characters of a bareword. -/
def isBareword (c : Char) : Bool :=
  c.isAlphanum || c = '_' || c = Char.ofNat 0x1a || 128 ≤ c.toNat

/-- Where the reader stands: between tokens, inside a string, behind a quote inside a string, inside
    a bareword. -/
inductive Place where
  | between
  | quoted (acc : Str)
  | closing (acc : Str)
  | word (acc : Str)

/-- What a character begins behind a token. -/
def start (c : Char) : Option Place :=
  if isSpace c then some .between
  else if c = '"' then some (.quoted [])
  else if isBareword c then some (.word [c])
  else none

def wordToken (w : Str) : Token :=
  if w = str "OR" then .or
  else if w = str "AND" then .and
  else if w = str "NOT" then .not
  else .phrase w

/-- The tokens of the rest of a query; none for a string that is not closed and for a character
    that begins no token. -/
def lexFrom : Place → Str → Option (List Token)
  | .between, [] => some []
  | .quoted _, [] => none
  | .closing acc, [] => some [.phrase acc]
  | .word acc, [] => some [wordToken acc]
  | .between, c :: rest =>
    match start c with
    | none => none
    | some place => lexFrom place rest
  | .quoted acc, c :: rest =>
    if c = '"' then lexFrom (.closing acc) rest else lexFrom (.quoted (acc ++ [c])) rest
  | .closing acc, c :: rest =>
    -- a doubled quote stands for a quote
    if c = '"' then lexFrom (.quoted (acc ++ ['"'])) rest
    else
      match start c with
      | none => none
      | some place => (lexFrom place rest).map (.phrase acc :: ·)
  | .word acc, c :: rest =>
    if isBareword c then lexFrom (.word (acc ++ [c])) rest
    else
      match start c with
      | none => none
      | some place => (lexFrom place rest).map (wordToken acc :: ·)

def lex (query : Str) : Option (List Token) := lexFrom .between query

/-! ## The grammar -/

/-- The stretches between the occurrences of an operator. -/
def stretches (op : Token) : List Token → List (List Token)
  | [] => [[]]
  | t :: ts =>
    if t = op then [] :: stretches op ts
    else
      match stretches op ts with
      | [] => [[t]]
      | s :: ss => (t :: s) :: ss

/-- The phrases of an implicit AND; none when another token stands among them. -/
def phrases : List Token → Option (List Str)
  | [] => some []
  | .phrase s :: ts => (phrases ts).map (s :: ·)
  | _ :: _ => none

/-- An implicit AND has at least one phrase. -/
def chain (ts : List Token) : Option (List Str) :=
  if ts = [] then none else phrases ts

/-- The alternatives of an `OR`, each an `AND` of `NOT`s of implicit ANDs. -/
abbrev Expr := List (List (List (List Str)))

def parse (ts : List Token) : Option Expr :=
  (stretches .or ts).mapM fun a => (stretches .and a).mapM fun b => (stretches .not b).mapM chain

/-- The expression of a query; none when it is not well formed. -/
def read (query : Str) : Option Expr := (lex query).bind parse

/-! ## The rows -/

/-- The tokens of a text. -/
abbrev Tokenizer := Str → List Str

/-- The tokens of the columns of a row. -/
abbrev Row := List (List Str)

variable (tokens : Tokenizer)

/-- The tokens of a phrase stand side by side in a column; a phrase without tokens matches
    nothing. -/
def matchesPhrase (row : Row) (phrase : Str) : Bool :=
  tokens phrase ≠ [] && row.any fun column => decide (tokens phrase <:+: column)

/-- An implicit AND drops its phrases without tokens, unless it has no others. -/
def acceptsChain (row : Row) (ps : List Str) : Bool :=
  let kept := ps.filter (tokens · ≠ [])
  kept ≠ [] && kept.all (matchesPhrase tokens row)

def acceptsNot (row : Row) : List (List Str) → Bool
  | [] => false
  | c :: excluded => acceptsChain tokens row c && !excluded.any (acceptsChain tokens row)

def accepts (row : Row) (e : Expr) : Bool := e.any fun a => a.all (acceptsNot tokens row)

/-! ## Strings -/

/-- A character inside a string. -/
def escapeChar (c : Char) : Str := if c = '"' then ['"', '"'] else [c]

def escape (s : Str) : Str := s.flatMap escapeChar

/-- The string for a text. -/
def quote (s : Str) : Str := '"' :: escape s ++ ['"']

theorem escape_append (a b : Str) : escape (a ++ b) = escape a ++ escape b := List.flatMap_append

theorem lexFrom_quoted (acc s rest : Str) :
    lexFrom (.quoted acc) (escape s ++ '"' :: rest) = lexFrom (.closing (acc ++ s)) rest := by
  induction s generalizing acc with
  | nil =>
      rw [List.append_nil]
      rfl
  | cons c s ih =>
      show lexFrom (.quoted acc) ((escapeChar c ++ escape s) ++ '"' :: rest) = _
      by_cases hc : c = '"'
      · subst hc
        show lexFrom (.quoted (acc ++ ['"'])) (escape s ++ '"' :: rest) = _
        rw [ih, List.append_assoc]
        rfl
      · rw [escapeChar, if_neg hc, List.append_assoc, List.singleton_append, lexFrom, if_neg hc, ih,
          List.append_assoc]
        rfl

theorem lexFrom_quote (s rest : Str) :
    lexFrom .between (quote s ++ rest) = lexFrom (.closing s) rest := by
  show lexFrom (.quoted []) ((escape s ++ ['"']) ++ rest) = _
  rw [List.append_assoc, List.singleton_append, lexFrom_quoted, List.nil_append]

theorem lexFrom_closing_space (s rest : Str) :
    lexFrom (.closing s) (' ' :: rest) = (lexFrom .between rest).map (.phrase s :: ·) := rfl

theorem lexFrom_closing_or (s t rest : Str) :
    lexFrom (.closing s) (str " OR " ++ quote t ++ rest) =
      (lexFrom (.closing t) rest).map fun ts => .phrase s :: .or :: ts := by
  rw [List.append_assoc]
  show ((lexFrom .between (quote t ++ rest)).map (wordToken (str "OR") :: ·)).map
    (.phrase s :: ·) = _
  rw [lexFrom_quote, Option.map_map]
  rfl

/-! ## Disjunctions of implicit ANDs -/

theorem stretches_cons_ne {op t : Token} (h : t ≠ op) {ts s : List Token}
    {ss : List (List Token)} (hts : stretches op ts = s :: ss) :
    stretches op (t :: ts) = (t :: s) :: ss := by
  rw [stretches, if_neg h, hts]

theorem stretches_cons_op (op : Token) (ts : List Token) :
    stretches op (op :: ts) = [] :: stretches op ts := by
  rw [stretches, if_pos rfl]

theorem stretches_of_not_mem {op : Token} {ts : List Token} (h : op ∉ ts) :
    stretches op ts = [ts] := by
  induction ts with
  | nil => rfl
  | cons t ts ih =>
      rw [List.mem_cons, not_or] at h
      exact stretches_cons_ne (Ne.symm h.1) (ih h.2)

theorem phrases_map (ps : List Str) : phrases (ps.map .phrase) = some ps := by
  induction ps with
  | nil => rfl
  | cons p ps ih =>
      show (phrases (ps.map .phrase)).map (p :: ·) = _
      rw [ih]
      rfl

theorem chain_map {ps : List Str} (h : ps ≠ []) : chain (ps.map .phrase) = some ps := by
  rw [chain, if_neg (by simpa using h), phrases_map]

theorem not_mem_map_phrase {op : Token} (h : ∀ s, op ≠ .phrase s) (ps : List Str) :
    op ∉ ps.map .phrase := by
  intro hmem
  obtain ⟨s, _, heq⟩ := List.mem_map.mp hmem
  exact h s heq.symm

theorem mapM_some {α β : Type} {f : α → Option β} {g : α → β} {l : List α}
    (h : ∀ a ∈ l, f a = some (g a)) : l.mapM f = some (l.map g) := by
  induction l with
  | nil => rfl
  | cons a l ih =>
      rw [List.mapM_cons, h a List.mem_cons_self, ih fun b hb => h b (List.mem_cons_of_mem _ hb)]
      rfl

/-- Stretches of phrases between `OR`s are read as they stand. -/
theorem parse_chains {ts : List Token} {chains : List (List Str)}
    (hts : stretches .or ts = chains.map fun c => c.map .phrase) (hne : ∀ c ∈ chains, c ≠ []) :
    parse ts = some (chains.map fun c => [[c]]) := by
  rw [parse, hts, List.mapM_map]
  refine mapM_some fun c hc => ?_
  simp only [Function.comp]
  rw [stretches_of_not_mem (not_mem_map_phrase (by simp) c)]
  rw [mapM_some (g := fun _ => [c])]
  · rfl
  · intro b hb
    rw [List.mem_singleton.mp hb, stretches_of_not_mem (not_mem_map_phrase (by simp) c)]
    rw [mapM_some (g := fun _ => c)]
    · rfl
    · intro d hd
      rw [List.mem_singleton.mp hd, chain_map (hne c hc)]

theorem accepts_chains (row : Row) (chains : List (List Str)) :
    accepts tokens row (chains.map fun c => [[c]]) = chains.any (acceptsChain tokens row) := by
  rw [accepts, List.any_map]
  refine congrArg chains.any (funext fun c => ?_)
  simp [acceptsNot]

/-! ## A column that holds some phrases and no more -/

/-- The phrases, each behind a token that keeps it apart. -/
def spread (sep : Str) (ps : List Str) : List Str := ps.flatMap fun p => sep :: tokens p

theorem not_prefix_cons {sep : Str} {xs ys : List Str} (hne : xs ≠ []) (hsep : sep ∉ xs) :
    ¬ xs <+: sep :: ys := by
  intro h
  cases xs with
  | nil => exact hne rfl
  | cons x xs =>
      rw [List.cons_prefix_cons] at h
      exact hsep (h.1 ▸ List.mem_cons_self)

theorem infix_spread {sep : Str} {ps xs : List Str} (hne : xs ≠ []) (hsep : sep ∉ xs) :
    xs <:+: spread tokens sep ps ↔ ∃ p ∈ ps, xs <:+: tokens p := by
  induction ps with
  | nil => simp [spread, hne]
  | cons p ps ih =>
      have hsplit : spread tokens sep (p :: ps) = (sep :: tokens p) ++ spread tokens sep ps :=
        List.flatMap_cons
      have hfirst : xs <:+: sep :: tokens p ↔ xs <:+: tokens p := by
        rw [List.infix_cons_iff, or_iff_right (not_prefix_cons hne hsep)]
      rw [hsplit, List.infix_append_iff_ne_nil, hfirst, ih]
      simp only [List.mem_cons, exists_eq_or_imp]
      refine or_congr_right (or_iff_left ?_)
      -- a stretch over the border would contain the token in front of the next phrase
      intro ⟨l₁, l₂, _, hl₂, hxs, _, hfront⟩
      cases ps with
      | nil => exact hl₂ (List.prefix_nil.mp hfront)
      | cons q ps =>
          exact not_prefix_cons hl₂ (fun h => hsep (hxs ▸ List.mem_append_right _ h)) hfront

theorem exists_apart (ps : List Str) : ∃ sep : Str, ∀ p ∈ ps, sep ∉ tokens p := by
  refine ⟨List.replicate (((ps.flatMap tokens).map List.length).sum + 1) 'a', fun p hp h => ?_⟩
  have hmem : List.replicate (((ps.flatMap tokens).map List.length).sum + 1) 'a' ∈
      ps.flatMap tokens := List.mem_flatMap.mpr ⟨p, hp, h⟩
  have hle := List.le_sum_of_mem (List.mem_map_of_mem (f := List.length) hmem)
  rw [List.length_replicate] at hle
  omega

/-! ## Trigrams -/

/-- The tokens of the trigram tokenizer. -/
def trigrams : Str → List Str
  | a :: b :: c :: rest => [a, b, c] :: trigrams (b :: c :: rest)
  | _ => []

theorem trigrams_eq_nil {s : Str} (h : s.length < 3) : trigrams s = [] := by
  rcases s with _ | ⟨a, _ | ⟨b, _ | ⟨c, s⟩⟩⟩
  · rfl
  · rfl
  · rfl
  · simp only [List.length_cons] at h
    omega

theorem trigrams_ne_nil {s : Str} (h : 3 ≤ s.length) : trigrams s ≠ [] := by
  rcases s with _ | ⟨a, _ | ⟨b, _ | ⟨c, s⟩⟩⟩
  · simp at h
  · simp at h
  · simp at h
  · simp [trigrams]

theorem trigrams_prefix_iff {p : Str} (hp : 3 ≤ p.length) (s : Str) :
    trigrams p <+: trigrams s ↔ p <+: s := by
  induction p generalizing s with
  | nil => simp at hp
  | cons a p ih =>
      rcases p with _ | ⟨b, _ | ⟨c, p⟩⟩
      · simp at hp
      · simp at hp
      rcases s with _ | ⟨x, _ | ⟨y, _ | ⟨z, s⟩⟩⟩
      · simp [trigrams]
      · simp [trigrams]
      · simp [trigrams]
      simp only [trigrams, List.cons_prefix_cons, List.cons.injEq, and_true]
      cases p with
      | nil => simp [trigrams]
      | cons d p =>
          rw [ih (by simp)]
          simp only [List.cons_prefix_cons]
          tauto

theorem trigrams_suffix {t s : Str} (h : t <:+ s) : trigrams t <:+ trigrams s := by
  obtain ⟨front, rfl⟩ := h
  induction front with
  | nil => exact List.suffix_rfl
  | cons a front ih =>
      refine ih.trans ?_
      rcases hs : front ++ t with _ | ⟨b, _ | ⟨c, s⟩⟩
      · rw [List.cons_append, hs]
        exact List.nil_suffix
      · rw [List.cons_append, hs]
        exact List.nil_suffix
      · rw [List.cons_append, hs]
        exact List.suffix_cons _ _

theorem exists_suffix_of_trigrams {s : Str} {ts : List Str} (h : ts <:+ trigrams s) :
    ∃ t, t <:+ s ∧ ts = trigrams t := by
  induction s with
  | nil => exact ⟨[], List.suffix_rfl, List.suffix_nil.mp h⟩
  | cons a s ih =>
      rcases s with _ | ⟨b, _ | ⟨c, s⟩⟩
      · exact ⟨[], List.nil_suffix, List.suffix_nil.mp h⟩
      · exact ⟨[], List.nil_suffix, List.suffix_nil.mp h⟩
      rw [trigrams, List.suffix_cons_iff] at h
      rcases h with rfl | h
      · exact ⟨_, List.suffix_rfl, rfl⟩
      · obtain ⟨t, ht, rfl⟩ := ih h
        exact ⟨t, ht.trans (List.suffix_cons _ _), rfl⟩

/-- **At least three characters stand in a text where their trigrams stand in its trigrams.** -/
theorem trigrams_infix_iff {p : Str} (hp : 3 ≤ p.length) (s : Str) :
    trigrams p <:+: trigrams s ↔ p <:+: s := by
  rw [List.infix_iff_prefix_suffix, List.infix_iff_prefix_suffix]
  constructor
  · intro ⟨ts, hfront, hsuffix⟩
    obtain ⟨t, ht, rfl⟩ := exists_suffix_of_trigrams hsuffix
    exact ⟨t, (trigrams_prefix_iff hp t).mp hfront, ht⟩
  · intro ⟨t, hfront, hsuffix⟩
    exact ⟨trigrams t, (trigrams_prefix_iff hp t).mpr hfront, trigrams_suffix hsuffix⟩

end Fts5
