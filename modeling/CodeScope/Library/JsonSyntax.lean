import CodeScope.Library.JsonText

/-! # The written form of JSON

A tree keeps everything that a JSON text is written with: the blanks, the spelling of the numbers
and the pieces of the strings. Its text is put together from these, and what it means is computed
from a meaning of the numbers and one of the strings. What is asked of the blanks, the numbers and
the strings is asked of the tokens of a tree, so the grammar of JSON and a wider one are two
conditions on the same trees. -/

namespace JsonSyntax

open JsonText

/-! ## Strings -/

/-- A piece of a string literal as it is written: a byte, an escape of one letter, or `\u` with four
    bytes. -/
inductive Piece where
  | raw (c : UInt8)
  | short (c : UInt8)
  | unicode (a b c d : UInt8)
deriving DecidableEq

/-- The letter `u`. -/
def letterU : UInt8 := 0x75

def Piece.text : Piece → Bytes
  | .raw c => [c]
  | .short c => [backslash, c]
  | .unicode a b c d => [backslash, letterU, a, b, c, d]

/-- The text between the quotes. -/
def inside (pieces : List Piece) : Bytes := pieces.flatMap Piece.text

/-- What tells the pieces apart: no quote and no backslash by itself, and only known letters. -/
def Piece.Shaped : Piece → Prop
  | .raw c => c ≠ quote ∧ c ≠ backslash
  | .short c => (shortEscape c).isSome
  | .unicode .. => True

/-- The pieces of JSON: no control character by itself, and hexadecimal digits behind `\u`. -/
def Piece.IsJson : Piece → Prop
  | .raw c => c ≠ quote ∧ c ≠ backslash ∧ 0x20 ≤ c
  | .short c => (shortEscape c).isSome
  | .unicode a b c d => (codeUnit a b c d).isSome

instance (p : Piece) : Decidable p.Shaped := by
  cases p <;> unfold Piece.Shaped <;> infer_instance

instance (p : Piece) : Decidable p.IsJson := by
  cases p <;> unfold Piece.IsJson <;> infer_instance

theorem Piece.IsJson.shaped {p : Piece} (h : p.IsJson) : p.Shaped := by
  cases p with
  | raw c => exact ⟨h.1, h.2.1⟩
  | short c => exact h
  | unicode a b c d => trivial

/-- What one piece stands for; a surrogate by itself is written like any other code unit. -/
def Piece.bytes : Piece → Bytes
  | .raw c => [c]
  | .short c => (shortEscape c).toList
  | .unicode a b c d => utf8 ((codeUnit a b c d).getD 0)

/-- The code point of two surrogates that belong together. -/
def surrogatePair : Piece → Piece → Option ℕ
  | .unicode a b c d, .unicode a' b' c' d' =>
    match codeUnit a b c d, codeUnit a' b' c' d' with
    | some u, some w =>
      if isHighSurrogate u && isLowSurrogate w then
        some (0x10000 + 1024 * (u - 0xD800) + (w - 0xDC00))
      else none
    | _, _ => none
  | _, _ => none

/-- What the pieces of a string stand for: two surrogates are one code point. -/
def decode : List Piece → Bytes
  | [] => []
  | [p] => p.bytes
  | p :: q :: rest =>
    match surrogatePair p q with
    | some u => utf8 u ++ decode rest
    | none => p.bytes ++ decode (q :: rest)

/-! ## Numbers -/

/-- The parts of a number as it is written: its sign, the digits before and behind the point, and
    the mark, the sign and the digits of its exponent. -/
structure NumberText where
  negative : Bool
  whole : Bytes
  fraction : Option Bytes
  exponent : Option (UInt8 × Bytes × Bytes)
deriving DecidableEq

namespace NumberText

/-- The text of an exponent. -/
def exponentText : Option (UInt8 × Bytes × Bytes) → Bytes
  | none => []
  | some (mark, sg, ds) => mark :: (sg ++ ds)

def fractionText : Option Bytes → Bytes
  | none => []
  | some ds => dot :: ds

def text (n : NumberText) : Bytes :=
  (if n.negative then [minus] else []) ++ (n.whole ++ (fractionText n.fraction ++
    exponentText n.exponent))

/-- An exponent has a mark, perhaps a sign, and digits. -/
def ExponentFits : Option (UInt8 × Bytes × Bytes) → Prop
  | none => True
  | some (mark, sg, ds) => isExponentMark mark ∧ (sg = [] ∨ sg = [plus] ∨ sg = [minus]) ∧
      ds ≠ [] ∧ ∀ c ∈ ds, isDigit c

/-- Numbers as C reads them: some digit before or behind the point. -/
structure Fits (n : NumberText) : Prop where
  whole : ∀ c ∈ n.whole, isDigit c
  fraction : ∀ c ∈ n.fraction.getD [], isDigit c
  some_digit : n.whole ++ n.fraction.getD [] ≠ []
  exponent : ExponentFits n.exponent

/-- The numbers of JSON: a digit before the point, none behind a leading zero, and a digit behind
    the point. -/
structure IsJson (n : NumberText) : Prop extends Fits n where
  whole_ne : n.whole ≠ []
  no_zero : n.whole.head? = some 0x30 → n.whole.length = 1
  fraction_ne : n.fraction ≠ some []

/-- The exponent that a number is written with. -/
def power (n : NumberText) : ℤ :=
  match n.exponent with
  | none => 0
  | some (_, sg, ds) => if sg = [minus] then -(natOf ds : ℤ) else natOf ds

/-- The number without its sign. -/
def magnitude (n : NumberText) : ℚ :=
  natOf (n.whole ++ n.fraction.getD []) * (10 : ℚ) ^ (n.power - (n.fraction.getD []).length)

def value (n : NumberText) : ℚ := if n.negative then -n.magnitude else n.magnitude

end NumberText

/-! ## Trees -/

/-- Values, the items of an array and the members of an object, at least one of each. -/
inductive Kind where
  | value
  | items
  | members

/-- A written value. The blanks stand before and behind an item, and before a key, between it and
    the colon, and before and behind the value. -/
inductive Tree : Kind → Type where
  | null : Tree .value
  | bool (b : Bool) : Tree .value
  | number (token : Bytes) : Tree .value
  | string (pieces : List Piece) : Tree .value
  | emptyArray (blank : Bytes) : Tree .value
  | array (items : Tree .items) : Tree .value
  | emptyObject (blank : Bytes) : Tree .value
  | object (members : Tree .members) : Tree .value
  | lastItem (front : Bytes) (v : Tree .value) (back : Bytes) : Tree .items
  | item (front : Bytes) (v : Tree .value) (back : Bytes) (rest : Tree .items) : Tree .items
  | lastMember (front : Bytes) (key : List Piece) (mid : Bytes) (gap : Bytes) (v : Tree .value)
      (back : Bytes) : Tree .members
  | member (front : Bytes) (key : List Piece) (mid : Bytes) (gap : Bytes) (v : Tree .value)
      (back : Bytes) (rest : Tree .members) : Tree .members

/-- A string literal. -/
def quoted (pieces : List Piece) : Bytes := quote :: (inside pieces ++ [quote])

namespace Tree

def text : {k : Kind} → Tree k → Bytes
  | _, .null => nullName
  | _, .bool b => if b then trueName else falseName
  | _, .number token => token
  | _, .string pieces => quoted pieces
  | _, .emptyArray blank => openBracket :: (blank ++ [closeBracket])
  | _, .array items => openBracket :: items.text
  | _, .emptyObject blank => openBrace :: (blank ++ [closeBrace])
  | _, .object members => openBrace :: members.text
  | _, .lastItem front v back => front ++ (v.text ++ (back ++ [closeBracket]))
  | _, .item front v back rest => front ++ (v.text ++ (back ++ comma :: rest.text))
  | _, .lastMember front key mid gap v back =>
    front ++ (quoted key ++ (mid ++ colon :: (gap ++ (v.text ++ (back ++ [closeBrace])))))
  | _, .member front key mid gap v back rest =>
    front ++ (quoted key ++ (mid ++ colon :: (gap ++ (v.text ++ (back ++ comma :: rest.text)))))

/-- How deep values are nested; a value by itself has depth 1. -/
def depth : {k : Kind} → Tree k → ℕ
  | _, .null => 1
  | _, .bool _ => 1
  | _, .number _ => 1
  | _, .string _ => 1
  | _, .emptyArray _ => 1
  | _, .array items => items.depth + 1
  | _, .emptyObject _ => 1
  | _, .object members => members.depth + 1
  | _, .lastItem _ v _ => v.depth
  | _, .item _ v _ rest => max v.depth rest.depth
  | _, .lastMember _ _ _ _ v _ => v.depth
  | _, .member _ _ _ _ v _ rest => max v.depth rest.depth

end Tree

/-- What a text is made of, the punctuation and the three names apart. -/
inductive Token where
  | blank (s : Bytes)
  | number (token : Bytes)
  | string (pieces : List Piece)

/-- The tokens of a tree, in their order. -/
def Tree.tokens : {k : Kind} → Tree k → List Token
  | _, .null => []
  | _, .bool _ => []
  | _, .number token => [.number token]
  | _, .string pieces => [.string pieces]
  | _, .emptyArray blank => [.blank blank]
  | _, .array items => items.tokens
  | _, .emptyObject blank => [.blank blank]
  | _, .object members => members.tokens
  | _, .lastItem front v back => .blank front :: (v.tokens ++ [.blank back])
  | _, .item front v back rest => .blank front :: (v.tokens ++ .blank back :: rest.tokens)
  | _, .lastMember front key mid gap v back =>
    .blank front :: .string key :: .blank mid :: .blank gap :: (v.tokens ++ [.blank back])
  | _, .member front key mid gap v back rest =>
    .blank front :: .string key :: .blank mid :: .blank gap ::
      (v.tokens ++ .blank back :: rest.tokens)

/-- The bytes that a number may consist of. -/
def isNumberByte (c : UInt8) : Bool :=
  isDigit c || c = dot || isExponentMark c || c = plus || c = minus

/-- What tells the tokens apart: blanks, bytes of numbers behind a minus or a digit, and pieces. -/
def Token.Shaped : Token → Prop
  | .blank s => ∀ c ∈ s, isSpace c
  | .number token => (∃ c rest, token = c :: rest ∧ (c = minus ∨ isDigit c)) ∧
      ∀ c ∈ token, isNumberByte c
  | .string pieces => ∀ p ∈ pieces, p.Shaped

/-- The tokens of JSON. -/
def Token.IsJson : Token → Prop
  | .blank s => ∀ c ∈ s, isSpace c
  | .number token => ∃ n : NumberText, n.IsJson ∧ token = n.text
  | .string pieces => ∀ p ∈ pieces, p.IsJson

/-! ## Meaning -/

/-- JSON values, for numbers of some type. -/
inductive Val (ν : Type) where
  | null
  | bool (b : Bool)
  | number (x : ν)
  | string (s : Bytes)
  | array (items : List (Val ν))
  | object (members : List (Bytes × Val ν))

/-- What the trees of a kind mean. -/
abbrev Sem (ν : Type) : Kind → Type
  | .value => Val ν
  | .items => List (Val ν)
  | .members => List (Bytes × Val ν)

section Eval

variable {ν : Type} (number : Bytes → Option ν) (string : List Piece → Option Bytes)

/-- The meaning of a tree, if all its numbers and strings have one. -/
def Tree.eval : {k : Kind} → Tree k → Option (Sem ν k)
  | _, .null => some .null
  | _, .bool b => some (.bool b)
  | _, .number token => (number token).map .number
  | _, .string pieces => (string pieces).map .string
  | _, .emptyArray _ => some (.array [])
  | _, .array items => items.eval.map .array
  | _, .emptyObject _ => some (.object [])
  | _, .object members => members.eval.map .object
  | _, .lastItem _ v _ => v.eval.map fun x => [x]
  | _, .item _ v _ rest => v.eval.bind fun x => rest.eval.map fun xs => x :: xs
  | _, .lastMember _ key _ _ v _ => (string key).bind fun k => v.eval.map fun x => [(k, x)]
  | _, .member _ key _ _ v _ rest =>
    (string key).bind fun k => v.eval.bind fun x => rest.eval.map fun xs => (k, x) :: xs

end Eval

/-! ## Bytes of numbers -/

theorem isDigit_isNumberByte {c : UInt8} (h : isDigit c = true) : isNumberByte c = true := by
  simp [isNumberByte, h]

theorem NumberText.ExponentFits.isNumberByte {e : Option (UInt8 × Bytes × Bytes)}
    (h : NumberText.ExponentFits e) : ∀ c ∈ NumberText.exponentText e, isNumberByte c = true := by
  rcases e with - | ⟨mark, sg, ds⟩
  · intro c hc
    exact absurd hc List.not_mem_nil
  · obtain ⟨hmark, hsign, -, hdigits⟩ := h
    intro c hc
    rcases List.mem_cons.mp hc with rfl | hc
    · simp [JsonSyntax.isNumberByte, hmark]
    rcases List.mem_append.mp hc with hc | hc
    · rcases hsign with rfl | rfl | rfl
      · exact absurd hc List.not_mem_nil
      · rw [List.mem_singleton.mp hc]
        rfl
      · rw [List.mem_singleton.mp hc]
        rfl
    · exact isDigit_isNumberByte (hdigits c hc)

/-- A number consists of the bytes of numbers. -/
theorem NumberText.Fits.isNumberByte {n : NumberText} (h : n.Fits) :
    ∀ c ∈ n.text, isNumberByte c = true := by
  intro c hc
  rw [NumberText.text] at hc
  rcases List.mem_append.mp hc with hc | hc
  · split_ifs at hc with hneg
    · rw [List.mem_singleton.mp hc]
      rfl
    · exact absurd hc List.not_mem_nil
  rcases List.mem_append.mp hc with hc | hc
  · exact isDigit_isNumberByte (h.whole c hc)
  rcases List.mem_append.mp hc with hc | hc
  · cases hf : n.fraction with
    | none =>
        rw [hf] at hc
        exact absurd hc List.not_mem_nil
    | some ds =>
        rw [hf] at hc
        rcases List.mem_cons.mp hc with rfl | hc
        · rfl
        · exact isDigit_isNumberByte (h.fraction c (by rw [hf]; exact hc))
  · exact h.exponent.isNumberByte c hc

/-! ## Conditions on the tokens -/

/-- All tokens of a tree meet a condition. -/
def Tree.All {k : Kind} (P : Token → Prop) (t : Tree k) : Prop := ∀ tok ∈ t.tokens, P tok

section All

variable {P : Token → Prop} {front mid gap back : Bytes} {key : List Piece} {v : Tree .value}

theorem all_lastItem : (Tree.lastItem front v back).All P ↔
    P (.blank front) ∧ v.All P ∧ P (.blank back) := by
  simp [Tree.All, Tree.tokens, or_imp, forall_and]

theorem all_item {rest : Tree .items} : (Tree.item front v back rest).All P ↔
    P (.blank front) ∧ v.All P ∧ P (.blank back) ∧ rest.All P := by
  simp [Tree.All, Tree.tokens, or_imp, forall_and]

theorem all_lastMember : (Tree.lastMember front key mid gap v back).All P ↔
    P (.blank front) ∧ P (.string key) ∧ P (.blank mid) ∧ P (.blank gap) ∧ v.All P ∧
      P (.blank back) := by
  simp [Tree.All, Tree.tokens, or_imp, forall_and]

theorem all_member {rest : Tree .members} :
    (Tree.member front key mid gap v back rest).All P ↔
      P (.blank front) ∧ P (.string key) ∧ P (.blank mid) ∧ P (.blank gap) ∧ v.All P ∧
        P (.blank back) ∧ rest.All P := by
  simp [Tree.All, Tree.tokens, or_imp, forall_and]

end All

end JsonSyntax
