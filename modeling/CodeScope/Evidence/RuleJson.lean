import CodeScope.Library.JsonLayout
import CodeScope.Library.JsonNumbers

/-! # The JSON parser of the rule files

`JsonParser` of `rule.cpp`: a recursive descent over the bytes of a rule file, with a limit on the
depth. Conversions are left to the C library: `strtod` for a number, `strtoul` for the four bytes
behind `\u`. What a `double` makes of a number, and when that fails with `ERANGE`, is a parameter.

The position is the text that is left; its offset is counted from the length of the whole text. -/

namespace CodeScope.Evidence.RuleJson

open JsonText JsonSyntax

/-- What a step of the parser gives: nothing when the steps run out, else an error or a value with
    the text behind it. -/
abbrev Result (α : Type) : Type := Option (Except Bytes (α × Bytes))

def andThen {α β : Type} (r : Result α) (f : α → Bytes → Result β) : Result β :=
  match r with
  | none => none
  | some (.error e) => some (.error e)
  | some (.ok (a, s)) => f a s

def ascii (s : String) : Bytes := s.toList.map fun c => c.toNat.toUInt8

/-- `setError`, for a text of `total` bytes of which `s` is left. -/
def setError (total : ℕ) (msg s : Bytes) : Bytes :=
  msg ++ (ascii " (at offset " ++ (natText (total - s.length) ++ ascii ")"))

def kMaxDepth : ℕ := 64

def skipWhitespace (s : Bytes) : Bytes := skipSpace s

/-! ## Conversions of the C library -/

/-- `isspace` of the C locale. -/
def isspace (c : UInt8) : Bool := c = 0x20 || (0x09 ≤ c && c ≤ 0x0D)

def isHexDigit (c : UInt8) : Bool := (hexValue c).isSome

/-- `std::stoul(hex, nullptr, 16)`, which throws when there is no digit. White space, a sign and
    `0x` may come first, and what comes behind the digits is left. -/
def stoul (hex : Bytes) : Option ℕ :=
  -- white space and one sign are skipped, and a minus wraps around 64 bits
  let s := hex.dropWhile isspace
  let negative := s.head? = some minus
  let s := if s.head? = some minus ∨ s.head? = some plus then s.tail else s
  -- `0x` is skipped only before a digit; else the `0` is the number
  let s :=
    match s with
    | z :: x :: d :: rest =>
      if z = 0x30 && (x = 0x78 || x = 0x58) && isHexDigit d then d :: rest else s
    | _ => s
  let digits := s.takeWhile isHexDigit
  if digits = [] then none
  else
    let n := digits.foldl (fun n c => 16 * n + (hexValue c).getD 0) 0
    some (if negative then (2 ^ 64 - n) % 2 ^ 64 else n)

/-- The UTF-8 bytes that `parseString` writes for `static_cast<unsigned>(n)`. -/
def codeBytes (n : ℕ) : Bytes :=
  let code := n % 2 ^ 32
  if code < 0x80 then [code.toUInt8]
  else if code < 0x800 then [(0xC0 ||| code >>> 6).toUInt8, (0x80 ||| code &&& 0x3F).toUInt8]
  else
    [(0xE0 ||| code >>> 12).toUInt8, (0x80 ||| code >>> 6 &&& 0x3F).toUInt8,
      (0x80 ||| code &&& 0x3F).toUInt8]

section Parser

variable {D : Type} (toDouble : Bool → ℚ → Option D) (total : ℕ)

/-- `std::stod(num, &idx)`: the number and what is left of the text. -/
def stod (num : Bytes) : Option (D × Bytes) :=
  (readNumber num).bind fun p => (toDouble p.1.negative p.1.magnitude).map fun x => (x, p.2)

/-! ## Tokens -/

/-- The loop of `parseString`. -/
def stringLoop : Bytes → Bytes → Except Bytes (Bytes × Bytes)
  | _, [] => .error (setError total (ascii "unterminated string") [])
  | s, c :: rest =>
    if c = quote then .ok (s, rest)
    else if c = backslash then
      match rest with
      | [] => .error (setError total (ascii "unterminated escape") [])
      | esc :: rest =>
        match shortEscape esc with
        | some e => stringLoop (s ++ [e]) rest
        | none =>
          if esc = letterU then
            -- the next four bytes, whatever they are, a quote included
            match rest with
            | h₁ :: h₂ :: h₃ :: h₄ :: rest =>
              match stoul [h₁, h₂, h₃, h₄] with
              | some code => stringLoop (s ++ codeBytes code) rest
              | none =>
                .error (setError total (ascii "bad \\u escape: " ++ [h₁, h₂, h₃, h₄]) rest)
            | _ => .error (setError total (ascii "unterminated \\u escape") [])
          else .error (setError total (ascii "bad escape '\\" ++ [esc] ++ ascii "'") rest)
    else stringLoop (s ++ [c]) rest

def parseString (s : Bytes) : Except Bytes (Bytes × Bytes) := stringLoop total [] s.tail

def parseNumber (s : Bytes) : Except Bytes (Val D × Bytes) :=
  let front := if s.head? = some minus then [minus] else []
  let s := if s.head? = some minus then s.tail else s
  -- the token runs on over any digits, points, signs and exponent marks
  let num := front ++ s.takeWhile isNumberByte
  let rest := s.dropWhile isNumberByte
  match stod toDouble num with
  | some (x, []) => .ok (.number x, rest)
  -- `stod` threw, or `idx != num.size()`
  | _ => .error (setError total (ascii "bad number: " ++ num) rest)

def parseBool (s : Bytes) : Except Bytes (Val D × Bytes) :=
  if s.take 4 = trueName then .ok (.bool true, s.drop 4)
  else if s.take 5 = falseName then .ok (.bool false, s.drop 5)
  else .error (setError total (ascii "invalid literal (expected true/false)") s)

def parseNull (s : Bytes) : Except Bytes (Val D × Bytes) :=
  if s.take 4 = nullName then .ok (.null, s.drop 4)
  else .error (setError total (ascii "invalid literal (expected null)") s)

/-! ## Values -/

/-- `parseObject` and `parseArray`, given the byte that ends them and their loop. -/
def parseBetween {α : Type} (close : UInt8) (wrap : List α → Val D)
    (loop : Bytes → Result (List α)) (s : Bytes) : Result (Val D) :=
  let s := skipWhitespace s.tail
  if s.head? = some close then some (.ok (wrap [], s.tail))
  else andThen (loop s) fun xs s => some (.ok (wrap xs, s))

def parseObject (members : Bytes → Result (List (Bytes × Val D))) (s : Bytes) : Result (Val D) :=
  parseBetween closeBrace .object members s

def parseArray (items : Bytes → Result (List (Val D))) (s : Bytes) : Result (Val D) :=
  parseBetween closeBracket .array items s

mutual

/-- `parseValue` with the value of `depth_` before the call. -/
def parseValue : ℕ → ℕ → Bytes → Result (Val D)
  | 0, _, _ => none
  | fuel + 1, depth, s =>
    -- the guard counts this call
    if depth + 1 > kMaxDepth then
      some (.error (setError total (ascii "maximum nesting depth exceeded") s))
    else
      match skipWhitespace s with
      | [] => some (.error (setError total (ascii "unexpected end of input") []))
      | c :: rest =>
        if c = openBrace then parseObject (members fuel (depth + 1)) (c :: rest)
        else if c = openBracket then parseArray (items fuel (depth + 1)) (c :: rest)
        else if c = quote then
          some ((parseString total (c :: rest)).map fun p => (.string p.1, p.2))
        else if c = 0x74 || c = 0x66 then some (parseBool total (c :: rest))
        else if c = 0x6E then some (parseNull total (c :: rest))
        else if c = minus || isDigit c then some (parseNumber toDouble total (c :: rest))
        else
          some (.error (setError total (ascii "unexpected character '" ++ [c] ++ ascii "'")
            (c :: rest)))

/-- The loop of `parseArray`. -/
def items : ℕ → ℕ → Bytes → Result (List (Val D))
  | 0, _, _ => none
  | fuel + 1, depth, s =>
    andThen (parseValue fuel depth s) fun val s =>
      let s := skipWhitespace s
      if s.head? = some comma then
        andThen (items fuel depth s.tail) fun vs s => some (.ok (val :: vs, s))
      else if s.head? = some closeBracket then some (.ok ([val], s.tail))
      else some (.error (setError total (ascii "expected ',' or ']' in array") s))

/-- The loop of `parseObject`. -/
def members : ℕ → ℕ → Bytes → Result (List (Bytes × Val D))
  | 0, _, _ => none
  | fuel + 1, depth, s =>
    let s := skipWhitespace s
    if s.head? ≠ some quote then
      some (.error (setError total (ascii "expected string key in object") s))
    else
      andThen (some (parseString total s)) fun key s =>
        let s := skipWhitespace s
        if s.head? ≠ some colon then
          some (.error (setError total (ascii "expected ':' after object key") s))
        else
          andThen (parseValue fuel depth s.tail) fun val s =>
            let s := skipWhitespace s
            if s.head? = some comma then
              andThen (members fuel depth s.tail) fun ms s => some (.ok ((key, val) :: ms, s))
            else if s.head? = some closeBrace then some (.ok ([(key, val)], s.tail))
            else some (.error (setError total (ascii "expected ',' or '\x7d' in object") s))

end

end Parser

variable {D : Type} (toDouble : Bool → ℚ → Option D)

/-- `parse`; the steps of a text of `n` bytes are never more than `2 * n + 2`. -/
def parse (src : Bytes) : Option (Except Bytes (Val D)) :=
  let s := skipWhitespace src
  if s = [] then some (.error (setError src.length (ascii "unexpected end of input") []))
  else
    (andThen (parseValue toDouble src.length (2 * src.length + 2) 0 s) fun v s =>
      let s := skipWhitespace s
      if s ≠ [] then
        some (.error (setError src.length (ascii "trailing characters after JSON value") s))
      else some (.ok (v, s))).map fun r => r.map Prod.fst

end CodeScope.Evidence.RuleJson
