import CodeScope.Library.CNumbers
import CodeScope.Library.JsonSyntax

/-! # Which response is this

`isResponseFor` of `lsp_framing.h` looks for the first `"id"` of a message body, wherever it stands,
and reads the digits behind it. On a JSON text that place is a string literal: one that is spelled
`id`, or one that ends in an escaped quote and `id`; keys and values at any depth count alike
(`behindId_text`). -/

namespace CodeScope.Lsp

open JsonText JsonSyntax

/-! ## The code -/

def space : UInt8 := 0x20
def letterI : UInt8 := 0x69
def letterD : UInt8 := 0x64

/-- `body.find("\"id\"")` and `pos += 4`: what stands behind the first hit. -/
def behindId : Bytes → Option Bytes
  | [] => none
  | c :: rest =>
    if [quote, letterI, letterD, quote].isPrefixOf (c :: rest) then some (rest.drop 3)
    else behindId rest

/-- `std::atoi` -/
def atoi (s : Bytes) : ℤ := CNumbers.atoi (s.map fun c => Char.ofNat c.toNat)

/-- What `isResponseFor` does behind the hit. -/
def readsId (rest : Bytes) (expected_id : ℤ) : Bool :=
  match rest.dropWhile fun c => c = space || c = colon with
  | [] => false
  -- `std::atoi` reads on to the first byte that is no digit
  | c :: more => isDigit c && atoi (c :: more) = expected_id

def isResponseFor (body : Bytes) (expected_id : ℤ) : Bool :=
  match behindId body with
  | none => false
  | some rest => readsId rest expected_id

/-! ## Hits in a literal -/

/-- A literal in which the search hits. -/
def idLike (pieces : List Piece) : Bool :=
  pieces = [.raw letterI, .raw letterD] ||
    [Piece.short quote, .raw letterI, .raw letterD].isSuffixOf pieces

theorem behindId_skip {s : Bytes} (h : ∀ c ∈ s, c ≠ quote) (r : Bytes) :
    behindId (s ++ r) = behindId r := by
  induction s with
  | nil => rfl
  | cons c s ih =>
      have hc : c ≠ quote := h c List.mem_cons_self
      rw [List.cons_append, behindId, if_neg]
      · exact ih fun d hd => h d (List.mem_cons_of_mem c hd)
      · simp [List.isPrefixOf, Ne.symm hc]

variable {c : UInt8} {pieces : List Piece} {r : Bytes}

theorem hexDigit_ne_quote (h : (hexValue c).isSome) : c ≠ quote := by
  rintro rfl
  exact absurd h (by decide)

theorem codeUnit_ne_quote {a b d : UInt8} (h : (codeUnit a b c d).isSome) :
    a ≠ quote ∧ b ≠ quote ∧ c ≠ quote ∧ d ≠ quote := by
  obtain ⟨u, hu⟩ := Option.isSome_iff_exists.mp h
  simp only [codeUnit, Option.bind_eq_some_iff, Option.map_eq_some_iff] at hu
  obtain ⟨w, hw, x, hx, y, hy, z, hz, -⟩ := hu
  exact ⟨hexDigit_ne_quote (by rw [hw]; rfl), hexDigit_ne_quote (by rw [hx]; rfl),
    hexDigit_ne_quote (by rw [hy]; rfl), hexDigit_ne_quote (by rw [hz]; rfl)⟩

/-- A literal's inside reads `id` up to its end only when it is spelled so. -/
theorem startsId_iff (h : ∀ p ∈ pieces, p.IsJson) (r : Bytes) :
    [letterI, letterD, quote].isPrefixOf (inside pieces ++ quote :: r) = true ↔
      pieces = [.raw letterI, .raw letterD] := by
  have hback : ∀ c : UInt8, c = letterI ∨ c = letterD ∨ c = quote → backslash ≠ c := by
    rintro c (rfl | rfl | rfl) <;> decide
  rw [List.isPrefixOf_iff_prefix]
  constructor
  · rintro ⟨t, ht⟩
    rcases pieces with - | ⟨p, rest⟩
    · simp only [inside, List.flatMap_nil, List.nil_append, List.cons_append] at ht
      exact absurd (List.cons.inj ht).1 (by decide)
    cases p with
    | short c | unicode a b c d =>
        simp only [inside, List.flatMap_cons, Piece.text, List.cons_append] at ht
        exact absurd (List.cons.inj ht).1 (by decide)
    | raw c =>
        simp only [inside, List.flatMap_cons, Piece.text, List.cons_append, List.nil_append] at ht
        obtain ⟨rfl, hd⟩ := List.cons.inj ht
        clear ht
        rcases rest with - | ⟨q, rest⟩
        · simp only [List.flatMap_nil, List.nil_append] at hd
          exact absurd (List.cons.inj hd).1 (by decide)
        cases q with
        | short c | unicode a b c d =>
            simp only [List.flatMap_cons, Piece.text, List.cons_append] at hd
            exact absurd (List.cons.inj hd).1 (by decide)
        | raw c =>
            simp only [List.flatMap_cons, Piece.text, List.cons_append, List.nil_append] at hd
            obtain ⟨rfl, hq⟩ := List.cons.inj hd
            clear hd
            rcases rest with - | ⟨o, rest⟩
            · rfl
            · have hne : o.text.head? ≠ some quote ∧ o.text ≠ [] := by
                have ho := h o (by simp)
                cases o with
                | raw c => exact ⟨by simpa [Piece.text] using ho.1, by simp [Piece.text]⟩
                | short c | unicode a b c d =>
                    exact ⟨by simp [Piece.text, backslash, quote], by simp [Piece.text]⟩
              obtain ⟨c, more, hcons⟩ := List.exists_cons_of_ne_nil hne.2
              rw [List.flatMap_cons, hcons, List.cons_append, List.cons_append] at hq
              rw [hcons] at hne
              exact absurd (congrArg some (List.cons.inj hq).1.symm) hne.1
  · rintro rfl
    exact ⟨r, rfl⟩

theorem isSuffixOf_cons {ps : List Piece} {p : Piece} (hp : p ≠ .short quote) :
    [Piece.short quote, .raw letterI, .raw letterD].isSuffixOf (p :: ps) =
      [Piece.short quote, .raw letterI, .raw letterD].isSuffixOf ps := by
  rw [Bool.eq_iff_iff, List.isSuffixOf_iff_suffix, List.isSuffixOf_iff_suffix,
    List.suffix_cons_iff]
  refine ⟨fun h => h.resolve_left fun heq => hp (List.cons.inj heq).1.symm, Or.inr⟩

theorem behindId_quote (h : ∀ p ∈ pieces, p.IsJson) (r : Bytes) :
    behindId (quote :: (inside pieces ++ quote :: r)) =
      if pieces = [.raw letterI, .raw letterD] then some r
      else behindId (inside pieces ++ quote :: r) := by
  have hprefix : [quote, letterI, letterD, quote].isPrefixOf
      (quote :: (inside pieces ++ quote :: r)) =
      [letterI, letterD, quote].isPrefixOf (inside pieces ++ quote :: r) := by
    simp [List.isPrefixOf]
  rw [behindId, hprefix]
  by_cases hpieces : pieces = [.raw letterI, .raw letterD]
  · rw [if_pos ((startsId_iff h r).mpr hpieces), if_pos hpieces, hpieces]
    rfl
  · rw [if_neg fun hstart => hpieces ((startsId_iff h r).mp hstart), if_neg hpieces]

/-- The inside of a literal: a hit behind an escaped quote. -/
theorem behindId_inside (h : ∀ p ∈ pieces, p.IsJson) (hr : r.head? ≠ some letterI) :
    behindId (inside pieces ++ quote :: r) =
      if [Piece.short quote, .raw letterI, .raw letterD].isSuffixOf pieces then some r
      else behindId r := by
  induction pieces with
  | nil =>
      have hstart : [quote, letterI, letterD, quote].isPrefixOf (quote :: r) = false := by
        cases r with
        | nil => rfl
        | cons c r =>
            have hc : letterI ≠ c := fun heq => hr (by rw [heq]; rfl)
            simp [List.isPrefixOf, hc]
      change behindId (quote :: r) = _
      rw [behindId, hstart]
      rfl
  | cons p ps ih =>
      have hps := ih fun q hq => h q (List.mem_cons_of_mem p hq)
      have hp := h p List.mem_cons_self
      have hsplit : inside (p :: ps) ++ quote :: r = p.text ++ (inside ps ++ quote :: r) := by
        rw [inside, List.flatMap_cons, List.append_assoc]
        rfl
      rw [hsplit]
      cases p with
      | raw c =>
          rw [isSuffixOf_cons (by simp), ← hps]
          exact behindId_skip (s := [c]) (by simpa using hp.1) _
      | unicode a b c d =>
          obtain ⟨ha, hb, hc, hd⟩ := codeUnit_ne_quote hp
          rw [isSuffixOf_cons (by simp), ← hps]
          refine behindId_skip (fun x hx => ?_) _
          simp only [Piece.text, List.mem_cons, List.not_mem_nil, or_false] at hx
          rcases hx with rfl | rfl | rfl | rfl | rfl | rfl
          · decide
          · decide
          · exact ha
          · exact hb
          · exact hc
          · exact hd
      | short c =>
          by_cases hc : c = quote
          · subst hc
            have hstep : behindId ((Piece.short quote).text ++ (inside ps ++ quote :: r)) =
                behindId (quote :: (inside ps ++ quote :: r)) :=
              behindId_skip (s := [backslash]) (by simp [backslash, quote]) _
            rw [hstep, behindId_quote fun q hq => h q (List.mem_cons_of_mem _ hq), hps]
            by_cases hends : ps = [.raw letterI, .raw letterD]
            · subst hends
              rfl
            · rw [if_neg hends]
              have hsame : [Piece.short quote, .raw letterI, .raw letterD].isSuffixOf
                  (.short quote :: ps) =
                  [Piece.short quote, .raw letterI, .raw letterD].isSuffixOf ps := by
                rw [Bool.eq_iff_iff, List.isSuffixOf_iff_suffix, List.isSuffixOf_iff_suffix,
                  List.suffix_cons_iff]
                refine ⟨fun h => h.resolve_left fun heq => hends ?_, Or.inr⟩
                exact (List.cons.inj heq).2.symm
              rw [hsame]
          · rw [isSuffixOf_cons (by simpa using hc), ← hps]
            refine behindId_skip (fun x hx => ?_) _
            simp only [Piece.text, List.mem_cons, List.not_mem_nil, or_false] at hx
            rcases hx with rfl | rfl
            · decide
            · exact hc

/-- **A literal is hit or passed over as a whole.** -/
theorem behindId_quoted (h : ∀ p ∈ pieces, p.IsJson) (hr : r.head? ≠ some letterI) :
    behindId (quoted pieces ++ r) = if idLike pieces then some r else behindId r := by
  have hsplit : quoted pieces ++ r = quote :: (inside pieces ++ quote :: r) := by
    simp [quoted]
  rw [hsplit, behindId_quote h, behindId_inside h hr, idLike]
  by_cases hpieces : pieces = [.raw letterI, .raw letterD] <;> simp [hpieces]

/-! ## Hits in a tree -/

/-- Where a literal stands: as a value, or as a key before the blanks and the value behind it. -/
inductive Place where
  | value
  | key (mid gap : Bytes) (v : Tree .value)

/-- A string literal of a text. -/
structure Literal where
  pieces : List Piece
  place : Place

/-- The literals of a tree in their order, keys and values. -/
def literals : {k : Kind} → Tree k → List Literal
  | _, .null => []
  | _, .bool _ => []
  | _, .number _ => []
  | _, .string pieces => [⟨pieces, .value⟩]
  | _, .emptyArray _ => []
  | _, .array items => literals items
  | _, .emptyObject _ => []
  | _, .object members => literals members
  | _, .lastItem _ v _ => literals v
  | _, .item _ v _ rest => literals v ++ literals rest
  | _, .lastMember _ key mid gap v _ => ⟨key, .key mid gap v⟩ :: literals v
  | _, .member _ key mid gap v _ rest =>
    ⟨key, .key mid gap v⟩ :: (literals v ++ literals rest)

/-- The literals with the text behind each of them, when `r` stands behind the tree. -/
def hits : {k : Kind} → Tree k → Bytes → List (Literal × Bytes)
  | _, .null, _ => []
  | _, .bool _, _ => []
  | _, .number _, _ => []
  | _, .string pieces, r => [(⟨pieces, .value⟩, r)]
  | _, .emptyArray _, _ => []
  | _, .array items, r => hits items r
  | _, .emptyObject _, _ => []
  | _, .object members, r => hits members r
  | _, .lastItem _ v back, r => hits v (back ++ closeBracket :: r)
  | _, .item _ v back rest, r => hits v (back ++ comma :: (rest.text ++ r)) ++ hits rest r
  | _, .lastMember _ key mid gap v back, r =>
    (⟨key, .key mid gap v⟩, mid ++ colon :: (gap ++ (v.text ++ (back ++ closeBrace :: r)))) ::
      hits v (back ++ closeBrace :: r)
  | _, .member _ key mid gap v back rest, r =>
    (⟨key, .key mid gap v⟩,
        mid ++ colon :: (gap ++ (v.text ++ (back ++ comma :: (rest.text ++ r))))) ::
      (hits v (back ++ comma :: (rest.text ++ r)) ++ hits rest r)

theorem hits_literals {k : Kind} (t : Tree k) (r : Bytes) :
    (hits t r).map Prod.fst = literals t := by
  induction t generalizing r with
  | null | bool | number | string | emptyArray | emptyObject => rfl
  | array items ih => exact ih r
  | object members ih => exact ih r
  | lastItem front v back ih => exact ih _
  | item front v back rest ihv ihrest =>
      rw [hits, List.map_append, ihv, ihrest]
      rfl
  | lastMember front key mid gap v back ih =>
      rw [hits, List.map_cons, ih]
      rfl
  | member front key mid gap v back rest ihv ihrest =>
      rw [hits, List.map_cons, List.map_append, ihv, ihrest]
      rfl

/-- The grammar of JSON for a tree. -/
def IsJson {k : Kind} (t : Tree k) : Prop := t.All Token.IsJson

theorem isSpace_ne (h : isSpace c = true) : c ≠ quote ∧ c ≠ letterI := by
  constructor <;> rintro rfl <;> exact absurd h (by decide)

theorem isNumberByte_ne (h : isNumberByte c = true) : c ≠ quote := by
  rintro rfl
  exact absurd h (by decide)

theorem behindId_blank {s : Bytes} (h : (Token.blank s).IsJson) (r : Bytes) :
    behindId (s ++ r) = behindId r :=
  behindId_skip (fun c hc => (isSpace_ne (h c hc)).1) r

theorem behindId_byte (h : c ≠ quote) (r : Bytes) : behindId (c :: r) = behindId r :=
  behindId_skip (s := [c]) (by simpa using h) r

theorem head_ne_letterI {s : Bytes} (h : (Token.blank s).IsJson) (hc : c ≠ letterI) (r : Bytes) :
    (s ++ c :: r).head? ≠ some letterI := by
  cases s with
  | nil => simpa using hc
  | cons d s => simpa using (isSpace_ne (h d List.mem_cons_self)).2

/-- The first literal that is hit, and the text behind it. -/
def firstHit (found : List (Literal × Bytes)) : Option Bytes :=
  (found.find? fun p => idLike p.1.pieces).map Prod.snd

theorem firstHit_append (a b : List (Literal × Bytes)) :
    firstHit (a ++ b) = (firstHit a).or (firstHit b) := by
  rw [firstHit, List.find?_append]
  unfold firstHit
  cases a.find? fun p => idLike p.1.pieces <;> rfl

theorem firstHit_cons (l : Literal) (r : Bytes) (found : List (Literal × Bytes)) :
    firstHit ((l, r) :: found) = if idLike l.pieces then some r else firstHit found := by
  rw [firstHit, List.find?_cons]
  cases idLike l.pieces <;> rfl

/-- **The search in a text** hits the first literal that is spelled `id` or ends in an escaped quote
    and `id`. -/
theorem behindId_text {k : Kind} (t : Tree k) (h : IsJson t) (hr : r.head? ≠ some letterI) :
    behindId (t.text ++ r) = (firstHit (hits t r)).or (behindId r) := by
  have hnames : (∀ c ∈ nullName, c ≠ quote) ∧ (∀ c ∈ falseName, c ≠ quote) ∧
      ∀ c ∈ trueName, c ≠ quote := by
    simp [nullName, falseName, trueName, quote]
  induction t generalizing r with
  | null =>
      rw [Tree.text, behindId_skip hnames.1]
      rfl
  | bool b =>
      cases b with
      | false =>
          rw [Tree.text, if_neg Bool.false_ne_true, behindId_skip hnames.2.1]
          rfl
      | true =>
          rw [Tree.text, if_pos rfl, behindId_skip hnames.2.2]
          rfl
  | number token =>
      obtain ⟨n, hn, rfl⟩ := h _ List.mem_cons_self
      exact behindId_skip (fun c hc => isNumberByte_ne (hn.toFits.isNumberByte c hc)) r
  | string pieces =>
      rw [hits, firstHit_cons, Tree.text, behindId_quoted (h _ List.mem_cons_self) hr]
      split_ifs <;> rfl
  | emptyArray blank | emptyObject blank =>
      rw [Tree.text, List.cons_append, List.append_assoc, behindId_byte (by decide),
        behindId_blank (h _ List.mem_cons_self), List.singleton_append, behindId_byte (by decide)]
      rfl
  | array items ih | object members ih =>
      rw [Tree.text, List.cons_append, behindId_byte (by decide)]
      exact ih h hr
  | lastItem front v back ih =>
      obtain ⟨hfront, hv, hback⟩ := all_lastItem.mp h
      rw [Tree.text, List.append_assoc, behindId_blank hfront, List.append_assoc,
        List.append_assoc, List.singleton_append, ih hv (head_ne_letterI hback (by decide) r),
        behindId_blank hback, behindId_byte (by decide), hits]
  | item front v back rest ihv ihrest =>
      obtain ⟨hfront, hv, hback, hrest⟩ := all_item.mp h
      rw [Tree.text, List.append_assoc, behindId_blank hfront, List.append_assoc,
        List.append_assoc, List.cons_append, ihv hv (head_ne_letterI hback (by decide) _),
        behindId_blank hback, behindId_byte (by decide), ihrest hrest hr, hits, firstHit_append,
        Option.or_assoc]
  | lastMember front key mid gap v back ih =>
      obtain ⟨hfront, hkey, hmid, hgap, hv, hback⟩ := all_lastMember.mp h
      have htext : (Tree.lastMember front key mid gap v back).text ++ r =
          front ++ (quoted key ++ (mid ++ colon ::
            (gap ++ (v.text ++ (back ++ closeBrace :: r))))) := by
        simp [Tree.text]
      rw [htext, behindId_blank hfront, behindId_quoted hkey (head_ne_letterI hmid (by decide) _),
        hits, firstHit_cons]
      split_ifs with hid
      · rfl
      · rw [behindId_blank hmid, behindId_byte (by decide), behindId_blank hgap,
          ih hv (head_ne_letterI hback (by decide) r), behindId_blank hback,
          behindId_byte (by decide)]
  | member front key mid gap v back rest ihv ihrest =>
      obtain ⟨hfront, hkey, hmid, hgap, hv, hback, hrest⟩ := all_member.mp h
      have htext : (Tree.member front key mid gap v back rest).text ++ r =
          front ++ (quoted key ++ (mid ++ colon ::
            (gap ++ (v.text ++ (back ++ comma :: (rest.text ++ r)))))) := by
        simp [Tree.text]
      rw [htext, behindId_blank hfront, behindId_quoted hkey (head_ne_letterI hmid (by decide) _),
        hits, firstHit_cons]
      split_ifs with hid
      · rfl
      · rw [behindId_blank hmid, behindId_byte (by decide), behindId_blank hgap,
          ihv hv (head_ne_letterI hback (by decide) _), behindId_blank hback,
          behindId_byte (by decide), ihrest hrest hr, firstHit_append, Option.or_assoc]

/-! ## Reading the number -/

def toChar (c : UInt8) : Char := Char.ofNat c.toNat

theorem toNat_toChar (c : UInt8) : (toChar c).toNat = c.toNat := by
  have hlt := c.toNat_lt
  have hvalid : c.toNat.isValidChar := Or.inl (by omega)
  rw [toChar, Char.ofNat, dif_pos hvalid]
  exact Char.toNat_ofNatAux hvalid

theorem isDigit_toChar (c : UInt8) : (toChar c).isDigit = isDigit c := by
  have hnat := toNat_toChar c
  rw [Bool.eq_iff_iff, Char.isDigit_iff_toNat, hnat]
  simp [isDigit, UInt8.le_iff_toNat_le]

/-- A text that begins with a digit is read digit by digit. -/
theorem strtol_digit (hc : isDigit c = true) (s : Bytes) :
    CNumbers.strtol ((c :: s).map toChar) = max (-2 ^ 63) (min (2 ^ 63 - 1)
      (CNumbers.decimal (CNumbers.leadingDigits ((c :: s).map toChar)) : ℤ)) := by
  have hdigit : (toChar c).isDigit = true := by rw [isDigit_toChar, hc]
  have hspace : CNumbers.isspace (toChar c) = false := by
    by_contra hs
    have hmem : toChar c ∈ [' ', '\t', '\n', '\x0b', '\x0c', '\r'] :=
      of_decide_eq_true (Bool.not_eq_false _ ▸ hs)
    simp only [List.mem_cons, List.not_mem_nil, or_false] at hmem
    rcases hmem with h | h | h | h | h | h <;>
      · rw [h] at hdigit
        exact absurd hdigit (by decide)
  unfold CNumbers.strtol
  rw [List.map_cons, List.dropWhile_cons_of_neg (by simp [hspace])]
  dsimp only
  split
  · rename_i rest heq
    rw [(List.cons.inj heq).1] at hdigit
    exact absurd hdigit (by decide)
  · rename_i rest heq
    rw [(List.cons.inj heq).1] at hdigit
    exact absurd hdigit (by decide)
  · rfl

/-- A text behind a number in which no digit comes next changes nothing. -/
theorem atoi_append {token : Bytes} (htoken : ∃ c more, token = c :: more ∧ isDigit c = true)
    (hr : ∀ c, r.head? = some c → isDigit c = false) : atoi (token ++ r) = atoi token := by
  obtain ⟨c, more, rfl, hc⟩ := htoken
  have hnone : (r.map toChar).takeWhile Char.isDigit = [] := by
    cases r with
    | nil => rfl
    | cons d r =>
        rw [List.map_cons, List.takeWhile_cons_of_neg]
        rw [isDigit_toChar, hr d rfl]
        exact Bool.false_ne_true
  have hsame : CNumbers.leadingDigits ((c :: (more ++ r)).map toChar) =
      CNumbers.leadingDigits ((c :: more).map toChar) := by
    unfold CNumbers.leadingDigits
    rw [← List.cons_append, List.map_append, List.takeWhile_append]
    split_ifs with hfull
    · rw [hnone, List.append_nil]
      exact (List.takeWhile_prefix _).eq_of_length hfull |>.symm
    · rfl
  change CNumbers.toInt32 (CNumbers.strtol ((c :: (more ++ r)).map toChar)) =
    CNumbers.toInt32 (CNumbers.strtol ((c :: more).map toChar))
  rw [strtol_digit hc, strtol_digit hc, hsame]

/-! ## What stands behind a literal -/

/-- Behind a value: blanks, and then the end or a comma or a closing bracket. -/
def Closes (r : Bytes) : Prop :=
  ∃ blank rest, (Token.blank blank).IsJson ∧ r = blank ++ rest ∧
    (rest = [] ∨ ∃ c more, rest = c :: more ∧ (c = comma ∨ c = closeBracket ∨ c = closeBrace))

theorem closes_blank {back : Bytes} (h : (Token.blank back).IsJson)
    (hc : c = comma ∨ c = closeBracket ∨ c = closeBrace) (r : Bytes) : Closes (back ++ c :: r) := ⟨back, c :: r, h, rfl, Or.inr ⟨c, r, rfl, hc⟩⟩

theorem isDigit_of_isSpace (h : isSpace c = true) : isDigit c = false := by
  simp only [isSpace, Bool.or_eq_true, decide_eq_true_iff] at h
  rcases h with ((rfl | rfl) | rfl) | rfl <;> rfl

theorem Closes.head (h : Closes r) : ∀ c, r.head? = some c → isDigit c = false := by
  obtain ⟨blank, rest, hblank, rfl, hrest⟩ := h
  intro c hc
  cases blank with
  | cons d blank =>
      obtain rfl : d = c := by simpa using hc
      exact isDigit_of_isSpace (hblank d List.mem_cons_self)
  | nil =>
      rcases hrest with rfl | ⟨d, more, rfl, hd⟩
      · cases hc
      · obtain rfl : d = c := by simpa using hc
        rcases hd with rfl | rfl | rfl <;> rfl

variable {k : ℤ}

theorem readsId_skip (h : c = space ∨ c = colon) (r : Bytes) :
    readsId (c :: r) k = readsId r k := by
  unfold readsId
  rw [List.dropWhile_cons_of_pos (by simpa using h)]

theorem readsId_stop (h : c ≠ space ∧ c ≠ colon) (hdigit : isDigit c = false) (r : Bytes) :
    readsId (c :: r) k = false := by
  unfold readsId
  rw [List.dropWhile_cons_of_neg (by simpa using h)]
  simp [hdigit]

theorem readsId_digit (hdigit : isDigit c = true) (r : Bytes) :
    readsId (c :: r) k = decide (atoi (c :: r) = k) := by
  have hne : c ≠ space ∧ c ≠ colon := by
    constructor <;> rintro rfl <;> exact absurd hdigit (by decide)
  unfold readsId
  rw [List.dropWhile_cons_of_neg (by simpa using hne)]
  simp [hdigit]

/-- Blanks are skipped when they are spaces; any other blank ends the search. -/
theorem readsId_blank {s : Bytes} (h : (Token.blank s).IsJson) (r : Bytes) :
    readsId (s ++ r) k = (decide (∀ c ∈ s, c = space) && readsId r k) := by
  induction s with
  | nil => simp
  | cons c s ih =>
      have hc : isSpace c = true := h c List.mem_cons_self
      have hs := ih fun d hd => h d (List.mem_cons_of_mem c hd)
      rw [List.cons_append]
      by_cases hspace : c = space
      · rw [readsId_skip (Or.inl hspace), hs]
        simp [hspace]
      · have hcolon : c ≠ colon := by
          rintro rfl
          exact absurd hc (by decide)
        rw [readsId_stop ⟨hspace, hcolon⟩ (isDigit_of_isSpace hc)]
        simp [hspace]

theorem readsId_closes (h : Closes r) : readsId r k = false := by
  obtain ⟨blank, rest, hblank, rfl, hrest⟩ := h
  rw [readsId_blank hblank]
  rcases hrest with rfl | ⟨c, more, rfl, hc⟩
  · simp [readsId]
  · rw [readsId_stop _ _ more, Bool.and_false]
    · rcases hc with rfl | rfl | rfl <;> decide
    · rcases hc with rfl | rfl | rfl <;> rfl

/-- The number that `isResponseFor` reads behind a key, from the front of a value. -/
def ReadsNumber (v : Tree .value) (k : ℤ) : Prop :=
  ∃ token, v = .number token ∧ (∃ c more, token = c :: more ∧ isDigit c = true) ∧ atoi token = k

theorem readsId_value {v : Tree .value} (h : IsJson v) (hr : Closes r) :
    readsId (v.text ++ r) k = true ↔ ReadsNumber v k := by
  have hstop : ∀ c s, v.text ++ r = c :: s → (c ≠ space ∧ c ≠ colon) → isDigit c = false →
      (∀ token, v ≠ .number token) → (readsId (v.text ++ r) k = true ↔ ReadsNumber v k) := by
    intro c s hcons hc hdigit hv
    rw [hcons, readsId_stop hc hdigit]
    refine iff_of_false Bool.false_ne_true ?_
    rintro ⟨token, hnumber, -⟩
    exact hv token hnumber
  cases v with
  | null => exact hstop 0x6E _ rfl (by decide) rfl (by simp)
  | bool b =>
      cases b with
      | false => exact hstop 0x66 _ rfl (by decide) rfl (by simp)
      | true => exact hstop 0x74 _ rfl (by decide) rfl (by simp)
  | string pieces => exact hstop quote _ rfl (by decide) rfl (by simp)
  | emptyArray blank | array items => exact hstop openBracket _ rfl (by decide) rfl (by simp)
  | emptyObject blank | object members => exact hstop openBrace _ rfl (by decide) rfl (by simp)
  | number token =>
      obtain ⟨n, hn, rfl⟩ := h _ List.mem_cons_self
      obtain ⟨d, ds, hwhole⟩ := List.exists_cons_of_ne_nil hn.whole_ne
      have hdigit : isDigit d = true := hn.whole d (by rw [hwhole]; exact List.mem_cons_self)
      cases hneg : n.negative with
      | true =>
          obtain ⟨s, hs⟩ : ∃ s, n.text = minus :: s := ⟨_, by rw [NumberText.text, hneg]; rfl⟩
          rw [Tree.text, hs, List.cons_append, readsId_stop (by decide) rfl]
          refine iff_of_false Bool.false_ne_true ?_
          rintro ⟨token, htoken, ⟨c, more, rfl, hc⟩, -⟩
          obtain rfl : minus = c := (List.cons.inj (Tree.number.inj htoken)).1
          exact absurd hc (by decide)
      | false =>
          obtain ⟨s, hs⟩ : ∃ s, n.text = d :: s :=
            ⟨_, by rw [NumberText.text, hneg, hwhole]; rfl⟩
          rw [Tree.text, hs, List.cons_append, readsId_digit hdigit, ← List.cons_append,
            atoi_append ⟨d, s, rfl, hdigit⟩ hr.head, decide_eq_true_iff]
          constructor
          · exact fun hk => ⟨_, rfl, ⟨d, s, rfl, hdigit⟩, hk⟩
          · rintro ⟨token, htoken, -, hk⟩
            rw [Tree.number.inj htoken]
            exact hk

/-- A literal behind which `isResponseFor` reads `k`: a key before a number, with no blanks but
    spaces in between. -/
def Literal.Reads (l : Literal) (k : ℤ) : Prop :=
  match l.place with
  | .value => False
  | .key mid gap v => (∀ c ∈ mid, c = space) ∧ (∀ c ∈ gap, c = space) ∧ ReadsNumber v k

theorem readsId_key {mid gap : Bytes} {v : Tree .value} (hmid : (Token.blank mid).IsJson)
    (hgap : (Token.blank gap).IsJson) (hv : IsJson v) (hr : Closes r) (key : List Piece) :
    readsId (mid ++ colon :: (gap ++ (v.text ++ r))) k = true ↔
      (⟨key, .key mid gap v⟩ : Literal).Reads k := by
  rw [readsId_blank hmid, readsId_skip (Or.inr rfl), readsId_blank hgap, Literal.Reads]
  simp only [Bool.and_eq_true, decide_eq_true_iff, readsId_value hv hr]

/-- Behind each literal of a text, what is read is what the literal says. -/
theorem readsId_hits {kind : Kind} (t : Tree kind) (h : IsJson t) (hr : Closes r) :
    ∀ p ∈ hits t r, (readsId p.2 k = true ↔ p.1.Reads k) := by
  induction t generalizing r with
  | null | bool | number | emptyArray | emptyObject =>
      intro p hp
      exact absurd hp List.not_mem_nil
  | string pieces =>
      intro p hp
      rw [List.mem_singleton.mp hp]
      rw [readsId_closes hr]
      exact iff_of_false Bool.false_ne_true id
  | array items ih => exact ih h hr
  | object members ih => exact ih h hr
  | lastItem front v back ih =>
      obtain ⟨-, hv, hback⟩ := all_lastItem.mp h
      exact ih hv (closes_blank hback (by simp) r)
  | item front v back rest ihv ihrest =>
      obtain ⟨-, hv, hback, hrest⟩ := all_item.mp h
      intro p hp
      rcases List.mem_append.mp hp with hp | hp
      · exact ihv hv (closes_blank hback (by simp) _) p hp
      · exact ihrest hrest hr p hp
  | lastMember front key mid gap v back ih =>
      obtain ⟨-, -, hmid, hgap, hv, hback⟩ := all_lastMember.mp h
      intro p hp
      rcases List.mem_cons.mp hp with rfl | hp
      · exact readsId_key hmid hgap hv (closes_blank hback (by simp) r) key
      · exact ih hv (closes_blank hback (by simp) r) p hp
  | member front key mid gap v back rest ihv ihrest =>
      obtain ⟨-, -, hmid, hgap, hv, hback, hrest⟩ := all_member.mp h
      intro p hp
      rcases List.mem_cons.mp hp with rfl | hp
      · exact readsId_key hmid hgap hv (closes_blank hback (by simp) _) key
      · rcases List.mem_append.mp hp with hp | hp
        · exact ihv hv (closes_blank hback (by simp) _) p hp
        · exact ihrest hrest hr p hp

end CodeScope.Lsp
