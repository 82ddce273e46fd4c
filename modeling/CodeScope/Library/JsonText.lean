import Mathlib

/-! # JSON texts

A reader for JSON texts as lists of bytes. Numbers without fraction and exponent are read as
integers, the others are kept as they are written. Strings are read byte for byte, escapes included:
`\uXXXX` stands for the UTF-8 bytes of its code point, and two surrogates for one code point.

The reader works by recursion on a number of steps; a text of `n` bytes never needs more than
`n + 1`. What matters to those who write JSON piece by piece is that reading is local: a value that
was read from a text is read again when more text follows (`value_append`). -/

namespace JsonText

abbrev Bytes := List UInt8

/-- JSON values. -/
inductive Value where
  | null
  | bool (b : Bool)
  | integer (i : Int)
  | decimal (token : Bytes)
  | string (s : Bytes)
  | array (items : List Value)
  | object (members : List (Bytes × Value))

/-! ## Bytes -/

def quote : UInt8 := 0x22
def backslash : UInt8 := 0x5C
def comma : UInt8 := 0x2C
def colon : UInt8 := 0x3A
def openBracket : UInt8 := 0x5B
def closeBracket : UInt8 := 0x5D
def openBrace : UInt8 := 0x7B
def closeBrace : UInt8 := 0x7D
def minus : UInt8 := 0x2D
def plus : UInt8 := 0x2B
def dot : UInt8 := 0x2E

def isSpace (c : UInt8) : Bool := c = 0x20 || c = 0x09 || c = 0x0A || c = 0x0D

def isDigit (c : UInt8) : Bool := 0x30 ≤ c && c ≤ 0x39

/-- `e` or `E`. -/
def isExponentMark (c : UInt8) : Bool := c = 0x65 || c = 0x45

def skipSpace (s : Bytes) : Bytes := s.dropWhile isSpace

/-! ## Strings -/

/-- The value of a hexadecimal digit. -/
def hexValue (c : UInt8) : Option Nat :=
  if isDigit c then some (c.toNat - 0x30)
  else if 0x61 ≤ c && c ≤ 0x66 then some (c.toNat - 0x57)
  else if 0x41 ≤ c && c ≤ 0x46 then some (c.toNat - 0x37)
  else none

/-- The code unit four hexadecimal digits stand for. -/
def codeUnit (a b c d : UInt8) : Option Nat :=
  (hexValue a).bind fun a => (hexValue b).bind fun b => (hexValue c).bind fun c =>
    (hexValue d).map fun d => 4096 * a + 256 * b + 16 * c + d

/-- The UTF-8 bytes of a code point. -/
def utf8 (u : Nat) : Bytes :=
  if u < 0x80 then [u.toUInt8]
  else if u < 0x800 then [(0xC0 + u / 64).toUInt8, (0x80 + u % 64).toUInt8]
  else if u < 0x10000 then
    [(0xE0 + u / 4096).toUInt8, (0x80 + u / 64 % 64).toUInt8, (0x80 + u % 64).toUInt8]
  else
    [(0xF0 + u / 262144).toUInt8, (0x80 + u / 4096 % 64).toUInt8, (0x80 + u / 64 % 64).toUInt8,
      (0x80 + u % 64).toUInt8]

def isHighSurrogate (u : Nat) : Bool := 0xD800 ≤ u && u < 0xDC00

def isLowSurrogate (u : Nat) : Bool := 0xDC00 ≤ u && u < 0xE000

/-- The byte a one-letter escape stands for. -/
def shortEscape (c : UInt8) : Option UInt8 :=
  if c = quote ∨ c = backslash ∨ c = 0x2F then some c
  else if c = 0x62 then some 0x08
  else if c = 0x66 then some 0x0C
  else if c = 0x6E then some 0x0A
  else if c = 0x72 then some 0x0D
  else if c = 0x74 then some 0x09
  else none

/-- What the escape after a backslash stands for, and the text that follows it. -/
def escapeSequence : Bytes → Option (Bytes × Bytes)
  | [] => none
  | c :: rest =>
    if c = 0x75 then
      match rest with
      | h₁ :: h₂ :: h₃ :: h₄ :: rest =>
        match codeUnit h₁ h₂ h₃ h₄ with
        | none => none
        | some u =>
          if isLowSurrogate u then none
          else if isHighSurrogate u then
            match rest with
            | b :: v :: l₁ :: l₂ :: l₃ :: l₄ :: rest =>
              if b = backslash ∧ v = 0x75 then
                match codeUnit l₁ l₂ l₃ l₄ with
                | none => none
                | some w =>
                  if isLowSurrogate w then
                    some (utf8 (0x10000 + 1024 * (u - 0xD800) + (w - 0xDC00)), rest)
                  else none
              else none
            | _ => none
          else some (utf8 u, rest)
      | _ => none
    else (shortEscape c).map fun e => ([e], rest)

/-- The contents of a string up to its closing quote, and the text that follows it. -/
def stringBody : Nat → Bytes → Option (Bytes × Bytes)
  | 0, _ => none
  | _ + 1, [] => none
  | n + 1, c :: rest =>
    if c = quote then some ([], rest)
    else if c = backslash then
      match escapeSequence rest with
      | none => none
      | some (e, rest) => (stringBody n rest).map fun r => (e ++ r.1, r.2)
    else if c < 0x20 then none
    else (stringBody n rest).map fun r => (c :: r.1, r.2)

/-! ## Numbers -/

def digits (s : Bytes) : Bytes × Bytes := (s.takeWhile isDigit, s.dropWhile isDigit)

/-- The number a list of digits stands for. -/
def natOf (ds : Bytes) : Nat := ds.foldl (fun n d => 10 * n + (d.toNat - 0x30)) 0

def sign : Bytes → Bytes × Bytes
  | [] => ([], [])
  | c :: rest => if c = minus then ([minus], rest) else ([], c :: rest)

def fraction : Bytes → Option (Bytes × Bytes)
  | [] => some ([], [])
  | c :: rest =>
    if c = dot then
      if (digits rest).1 = [] then none else some (dot :: (digits rest).1, (digits rest).2)
    else some ([], c :: rest)

/-- The digits of an exponent, after its mark and its sign. -/
def exponentDigits (mark s : Bytes) : Option (Bytes × Bytes) :=
  if (digits s).1 = [] then none else some (mark ++ (digits s).1, (digits s).2)

def exponent : Bytes → Option (Bytes × Bytes)
  | [] => some ([], [])
  | c :: rest =>
    if isExponentMark c then
      match rest with
      | [] => none
      | sg :: more =>
        if sg = plus ∨ sg = minus then exponentDigits [c, sg] more
        else exponentDigits [c] (sg :: more)
    else some ([], c :: rest)

/-- A number without superfluous leading zeros, and the text that follows it. -/
def number (s : Bytes) : Option (Value × Bytes) :=
  let (sg, s₁) := sign s
  let (ds, s₂) := digits s₁
  if ds = [] ∨ (ds.head? = some 0x30 ∧ ds.length ≠ 1) then none
  else
    match fraction s₂ with
    | none => none
    | some (fr, s₃) =>
      match exponent s₃ with
      | none => none
      | some (ex, s₄) =>
        if fr = [] ∧ ex = [] then
          some (.integer (if sg = [] then (natOf ds : Int) else -(natOf ds : Int)), s₄)
        else some (.decimal (sg ++ ds ++ fr ++ ex), s₄)

/-! ## Values -/

/-- `v` when the text starts with `name`, and what follows the name. -/
def literal (name : Bytes) (v : Value) (s : Bytes) : Option (Value × Bytes) :=
  if name.isPrefixOf s then some (v, s.drop name.length) else none

def trueName : Bytes := [0x74, 0x72, 0x75, 0x65]
def falseName : Bytes := [0x66, 0x61, 0x6C, 0x73, 0x65]
def nullName : Bytes := [0x6E, 0x75, 0x6C, 0x6C]

mutual

/-- The value at the start of a text, and the text that follows it. -/
def value : Nat → Bytes → Option (Value × Bytes)
  | 0, _ => none
  | n + 1, s =>
    match skipSpace s with
    | [] => none
    | c :: rest =>
      if c = quote then (stringBody n rest).map fun r => (.string r.1, r.2)
      else if c = openBracket then
        match skipSpace rest with
        | [] => none
        | d :: more =>
          if d = closeBracket then some (.array [], more)
          else (items n (d :: more)).map fun r => (.array r.1, r.2)
      else if c = openBrace then
        match skipSpace rest with
        | [] => none
        | d :: more =>
          if d = closeBrace then some (.object [], more)
          else (members n (d :: more)).map fun r => (.object r.1, r.2)
      else if c = 0x74 then literal trueName (.bool true) (c :: rest)
      else if c = 0x66 then literal falseName (.bool false) (c :: rest)
      else if c = 0x6E then literal nullName .null (c :: rest)
      else number (c :: rest)

/-- The items of an array up to its closing bracket, at least one. -/
def items : Nat → Bytes → Option (List Value × Bytes)
  | 0, _ => none
  | n + 1, s =>
    match value n s with
    | none => none
    | some (v, s) =>
      match skipSpace s with
      | [] => none
      | c :: rest =>
        if c = comma then (items n rest).map fun r => (v :: r.1, r.2)
        else if c = closeBracket then some ([v], rest)
        else none

/-- The members of an object up to its closing brace, at least one. -/
def members : Nat → Bytes → Option (List (Bytes × Value) × Bytes)
  | 0, _ => none
  | n + 1, s =>
    match skipSpace s with
    | [] => none
    | q :: s =>
      if q = quote then
        match stringBody n s with
        | none => none
        | some (k, s) =>
          match skipSpace s with
          | [] => none
          | c :: s =>
            if c = colon then
              match value n s with
              | none => none
              | some (v, s) =>
                match skipSpace s with
                | [] => none
                | c :: rest =>
                  if c = comma then (members n rest).map fun r => ((k, v) :: r.1, r.2)
                  else if c = closeBrace then some ([(k, v)], rest)
                  else none
            else none
      else none

end

/-- The value a text denotes, when it is one JSON text. -/
def parse (s : Bytes) : Option Value :=
  match value (s.length + 1) s with
  | none => none
  | some (v, rest) => if skipSpace rest = [] then some v else none

/-! ## Reading is local -/

variable {s r rest t : Bytes} {v : Value} {n : Nat} {ms : List (Bytes × Value)}

theorem skipSpace_append (h : skipSpace s ≠ []) : skipSpace (s ++ r) = skipSpace s ++ r := by
  induction s with
  | nil => exact absurd rfl h
  | cons c rest ih =>
      unfold skipSpace at h ih ⊢
      rw [List.cons_append]
      by_cases hc : isSpace c = true
      · rw [List.dropWhile_cons_of_pos hc] at h ⊢
        rw [List.dropWhile_cons_of_pos hc]
        exact ih h
      · rw [List.dropWhile_cons_of_neg hc, List.dropWhile_cons_of_neg hc, List.cons_append]

theorem skipSpace_append_cons {c : UInt8} (h : skipSpace s = c :: rest) :
    skipSpace (s ++ r) = c :: (rest ++ r) := by
  rw [skipSpace_append (by rw [h]; exact List.cons_ne_nil c rest), h, List.cons_append]

theorem escapeSequence_append {e : Bytes} (r : Bytes) (h : escapeSequence s = some (e, t)) :
    escapeSequence (s ++ r) = some (e, t ++ r) := by
  rcases s with - | ⟨c, rest⟩
  · simp [escapeSequence] at h
  rw [List.cons_append]
  simp only [escapeSequence] at h ⊢
  by_cases hu : c = 0x75
  · rw [if_pos hu] at h ⊢
    rcases rest with - | ⟨h₁, - | ⟨h₂, - | ⟨h₃, - | ⟨h₄, rest⟩⟩⟩⟩
    iterate 4 exact absurd h (by simp)
    simp only [List.cons_append] at h ⊢
    cases hcode : codeUnit h₁ h₂ h₃ h₄ with
    | none => simp [hcode] at h
    | some u =>
        simp only [hcode] at h ⊢
        split_ifs at h ⊢ with hlow hhigh
        · -- a pair of surrogates
          rcases rest with - | ⟨b, - | ⟨v, - | ⟨l₁, - | ⟨l₂, - | ⟨l₃, - | ⟨l₄, rest⟩⟩⟩⟩⟩⟩
          iterate 6 exact absurd h (by simp)
          simp only [List.cons_append] at h ⊢
          split_ifs at h ⊢ with hsecond
          cases hcode' : codeUnit l₁ l₂ l₃ l₄ with
          | none => simp [hcode'] at h
          | some w =>
              simp only [hcode'] at h ⊢
              split_ifs at h ⊢ with hw
              obtain ⟨rfl, rfl⟩ := Prod.mk.inj (Option.some.inj h)
              rfl
        · obtain ⟨rfl, rfl⟩ := Prod.mk.inj (Option.some.inj h)
          rfl
  · rw [if_neg hu] at h ⊢
    cases hs : shortEscape c with
    | none => simp [hs] at h
    | some x =>
        obtain ⟨rfl, rfl⟩ := by simpa [hs] using h
        rfl

/-- What `reader` reads in `n` steps it reads again with more steps, and before more text. -/
def Local {α : Type} (r : Bytes) (n : Nat) (reader : Nat → Bytes → Option (α × Bytes)) : Prop :=
  ∀ {m : Nat} {s : Bytes} {a : α} {t : Bytes}, n ≤ m → reader n s = some (a, t) →
    reader m (s ++ r) = some (a, t ++ r)

theorem stringBody_append (r : Bytes) (n : Nat) : Local r n stringBody := by
  intro m s k t hle h
  induction n generalizing m s k with
  | zero => simp [stringBody] at h
  | succ n ih =>
      obtain ⟨m, rfl⟩ : ∃ m', m = m' + 1 := ⟨m - 1, by omega⟩
      have hle' : n ≤ m := by omega
      rcases s with - | ⟨c, rest⟩
      · simp [stringBody] at h
      rw [List.cons_append]
      simp only [stringBody] at h ⊢
      by_cases hq : c = quote
      · rw [if_pos hq] at h ⊢
        obtain ⟨rfl, rfl⟩ := Prod.mk.inj (Option.some.inj h)
        rfl
      rw [if_neg hq] at h ⊢
      by_cases hb : c = backslash
      · rw [if_pos hb] at h ⊢
        cases he : escapeSequence rest with
        | none => simp [he] at h
        | some p =>
            obtain ⟨e, more⟩ := p
            rw [he] at h
            rw [escapeSequence_append r he]
            obtain ⟨⟨k', t'⟩, hbody, heq⟩ := Option.map_eq_some_iff.mp h
            obtain ⟨rfl, rfl⟩ := by simpa using heq
            simp only [ih hle' hbody, Option.map_some]
      rw [if_neg hb] at h ⊢
      by_cases hctl : c < 0x20
      · rw [if_pos hctl] at h
        exact absurd h (by simp)
      rw [if_neg hctl] at h ⊢
      obtain ⟨⟨k', t'⟩, hbody, heq⟩ := Option.map_eq_some_iff.mp h
      obtain ⟨rfl, rfl⟩ := by simpa using heq
      simp only [ih hle' hbody, Option.map_some]

/-- The text does not continue a number that ends before it. -/
def Boundary (r : Bytes) : Prop :=
  ∀ c ∈ r.head?, isDigit c = false ∧ c ≠ dot ∧ isExponentMark c = false

theorem digits_append (hr : Boundary r) : digits (s ++ r) = ((digits s).1, (digits s).2 ++ r) := by
  unfold digits
  induction s with
  | nil =>
      rcases r with - | ⟨c, rest⟩
      · rfl
      · have hc : ¬ isDigit c = true := by simp [(hr c rfl).1]
        rw [List.nil_append, List.takeWhile_cons_of_neg hc, List.dropWhile_cons_of_neg hc]
        rfl
  | cons c rest ih =>
      rw [List.cons_append]
      by_cases hc : isDigit c = true
      · rw [List.takeWhile_cons_of_pos hc, List.dropWhile_cons_of_pos hc,
          List.takeWhile_cons_of_pos hc, List.dropWhile_cons_of_pos hc]
        rw [Prod.mk.injEq] at ih ⊢
        exact ⟨by rw [ih.1], ih.2⟩
      · rw [List.takeWhile_cons_of_neg hc, List.dropWhile_cons_of_neg hc,
          List.takeWhile_cons_of_neg hc, List.dropWhile_cons_of_neg hc]
        rfl

theorem fraction_append {fr : Bytes} (hr : Boundary r) (h : fraction s = some (fr, t)) :
    fraction (s ++ r) = some (fr, t ++ r) := by
  rcases s with - | ⟨c, rest⟩
  · obtain ⟨rfl, rfl⟩ := by simpa [fraction] using h
    rcases r with - | ⟨c, rest⟩
    · rfl
    · simp [fraction, (hr c rfl).2.1]
  · rw [List.cons_append]
    simp only [fraction] at h ⊢
    rw [digits_append hr]
    split_ifs at h ⊢ <;>
    · obtain ⟨rfl, rfl⟩ := Prod.mk.inj (Option.some.inj h)
      rfl

theorem exponentDigits_append {mark ex : Bytes} (hr : Boundary r)
    (h : exponentDigits mark s = some (ex, t)) :
    exponentDigits mark (s ++ r) = some (ex, t ++ r) := by
  unfold exponentDigits at h ⊢
  rw [digits_append hr]
  split_ifs at h ⊢
  obtain ⟨rfl, rfl⟩ := Prod.mk.inj (Option.some.inj h)
  rfl

theorem exponent_append {ex : Bytes} (hr : Boundary r) (h : exponent s = some (ex, t)) :
    exponent (s ++ r) = some (ex, t ++ r) := by
  rcases s with - | ⟨c, rest⟩
  · obtain ⟨rfl, rfl⟩ := by simpa [exponent] using h
    rcases r with - | ⟨c, rest⟩
    · rfl
    · simp [exponent, (hr c rfl).2.2]
  · rw [List.cons_append]
    simp only [exponent] at h ⊢
    by_cases hc : isExponentMark c = true
    · rw [if_pos hc] at h ⊢
      rcases rest with - | ⟨sg, more⟩
      · simp at h
      · simp only [List.cons_append] at h ⊢
        split_ifs at h ⊢
        · exact exponentDigits_append hr h
        · exact exponentDigits_append hr h
    · rw [if_neg hc] at h ⊢
      obtain ⟨rfl, rfl⟩ := Prod.mk.inj (Option.some.inj h)
      rfl

/-- **A number is read again** when a text follows it that does not continue it. -/
theorem number_append (hr : Boundary r) (h : number s = some (v, t)) :
    number (s ++ r) = some (v, t ++ r) := by
  have hsign : (sign s).2 ≠ [] → sign (s ++ r) = ((sign s).1, (sign s).2 ++ r) := by
    intro hne
    rcases s with - | ⟨c, rest⟩
    · exact absurd rfl hne
    · by_cases hc : c = minus <;> simp [sign, hc]
  have hsome : (sign s).2 ≠ [] := by
    intro hnil
    simp [number, hnil, digits] at h
  unfold number at h ⊢
  rw [hsign hsome]
  simp only [digits_append hr]
  simp only at h
  by_cases hdigits : (digits (sign s).2).1 = [] ∨
      (digits (sign s).2).1.head? = some 0x30 ∧ (digits (sign s).2).1.length ≠ 1
  · rw [if_pos hdigits] at h
    exact absurd h (by simp)
  rw [if_neg hdigits] at h ⊢
  cases hf : fraction (digits (sign s).2).2 with
  | none => simp [hf] at h
  | some p =>
      obtain ⟨fr, s₃⟩ := p
      simp only [hf] at h
      simp only [fraction_append hr hf]
      cases he : exponent s₃ with
      | none => simp [he] at h
      | some p =>
          obtain ⟨ex, s₄⟩ := p
          simp only [he] at h
          simp only [exponent_append hr he]
          by_cases hint : fr = [] ∧ ex = []
          · rw [if_pos hint] at h ⊢
            obtain ⟨rfl, rfl⟩ := Prod.mk.inj (Option.some.inj h)
            rfl
          · rw [if_neg hint] at h ⊢
            obtain ⟨rfl, rfl⟩ := Prod.mk.inj (Option.some.inj h)
            rfl

theorem literal_append {name : Bytes} {w : Value} (r : Bytes) (h : literal name v s = some (w, t)) :
    literal name v (s ++ r) = some (w, t ++ r) := by
  unfold literal at h ⊢
  split_ifs at h with hname
  obtain ⟨rfl, rfl⟩ := Prod.mk.inj (Option.some.inj h)
  obtain ⟨rest, rfl⟩ := List.isPrefixOf_iff_prefix.mp hname
  have hlonger : name.isPrefixOf (name ++ rest ++ r) = true :=
    List.isPrefixOf_iff_prefix.mpr ⟨rest ++ r, by rw [List.append_assoc]⟩
  rw [if_pos hlonger]
  simp

theorem value_append (hr : Boundary r) (hitems : Local r n items) (hmembers : Local r n members) :
    Local r (n + 1) value := by
  intro m s v t hle h
  obtain ⟨m, rfl⟩ : ∃ m', m = m' + 1 := ⟨m - 1, by omega⟩
  have hle' : n ≤ m := by omega
  simp only [value] at h ⊢
  cases hs : skipSpace s with
  | nil => simp [hs] at h
  | cons c rest =>
      rw [hs] at h
      rw [skipSpace_append_cons hs]
      simp only at h ⊢
      by_cases hq : c = quote
      · rw [if_pos hq] at h ⊢
        obtain ⟨⟨k, u⟩, hbody, heq⟩ := Option.map_eq_some_iff.mp h
        obtain ⟨rfl, rfl⟩ := Prod.mk.inj heq
        rw [stringBody_append r n hle' hbody, Option.map_some]
      rw [if_neg hq] at h ⊢
      by_cases ha : c = openBracket
      · rw [if_pos ha] at h ⊢
        cases hd : skipSpace rest with
        | nil => simp [hd] at h
        | cons d more =>
            rw [hd] at h
            rw [skipSpace_append_cons hd]
            simp only at h ⊢
            by_cases hclose : d = closeBracket
            · rw [if_pos hclose] at h ⊢
              obtain ⟨rfl, rfl⟩ := Prod.mk.inj (Option.some.inj h)
              rfl
            · rw [if_neg hclose] at h ⊢
              obtain ⟨⟨vs, u⟩, hvs, heq⟩ := Option.map_eq_some_iff.mp h
              obtain ⟨rfl, rfl⟩ := Prod.mk.inj heq
              rw [← List.cons_append, hitems hle' hvs, Option.map_some]
      rw [if_neg ha] at h ⊢
      by_cases ho : c = openBrace
      · rw [if_pos ho] at h ⊢
        cases hd : skipSpace rest with
        | nil => simp [hd] at h
        | cons d more =>
            rw [hd] at h
            rw [skipSpace_append_cons hd]
            simp only at h ⊢
            by_cases hclose : d = closeBrace
            · rw [if_pos hclose] at h ⊢
              obtain ⟨rfl, rfl⟩ := Prod.mk.inj (Option.some.inj h)
              rfl
            · rw [if_neg hclose] at h ⊢
              obtain ⟨⟨ms, u⟩, hms, heq⟩ := Option.map_eq_some_iff.mp h
              obtain ⟨rfl, rfl⟩ := Prod.mk.inj heq
              rw [← List.cons_append, hmembers hle' hms, Option.map_some]
      rw [if_neg ho] at h ⊢
      rw [← List.cons_append]
      split_ifs at h ⊢
      · exact literal_append r h
      · exact literal_append r h
      · exact literal_append r h
      · exact number_append hr h

theorem items_append (hvalue : Local r n value) (hitems : Local r n items) :
    Local r (n + 1) items := by
  intro m s vs t hle h
  obtain ⟨m, rfl⟩ : ∃ m', m = m' + 1 := ⟨m - 1, by omega⟩
  have hle' : n ≤ m := by omega
  simp only [items] at h ⊢
  cases hv : value n s with
  | none => simp [hv] at h
  | some p =>
      obtain ⟨v, s₁⟩ := p
      rw [hv] at h
      rw [hvalue hle' hv]
      simp only at h ⊢
      cases hs : skipSpace s₁ with
      | nil => simp [hs] at h
      | cons c rest =>
          rw [hs] at h
          rw [skipSpace_append_cons hs]
          simp only at h ⊢
          by_cases hc : c = comma
          · rw [if_pos hc] at h ⊢
            obtain ⟨⟨us, u⟩, hus, heq⟩ := Option.map_eq_some_iff.mp h
            obtain ⟨rfl, rfl⟩ := Prod.mk.inj heq
            rw [hitems hle' hus, Option.map_some]
          · rw [if_neg hc] at h ⊢
            split_ifs at h ⊢
            obtain ⟨rfl, rfl⟩ := Prod.mk.inj (Option.some.inj h)
            rfl

theorem members_append (hvalue : Local r n value) (hmembers : Local r n members) :
    Local r (n + 1) members := by
  intro m s ms t hle h
  obtain ⟨m, rfl⟩ : ∃ m', m = m' + 1 := ⟨m - 1, by omega⟩
  have hle' : n ≤ m := by omega
  simp only [members] at h ⊢
  cases hs : skipSpace s with
  | nil => simp [hs] at h
  | cons q s₁ =>
      rw [hs] at h
      rw [skipSpace_append_cons hs]
      simp only at h ⊢
      split_ifs at h ⊢ with hq
      cases hk : stringBody n s₁ with
      | none => simp [hk] at h
      | some p =>
          obtain ⟨k, s₂⟩ := p
          rw [hk] at h
          rw [stringBody_append r n hle' hk]
          simp only at h ⊢
          cases hs₂ : skipSpace s₂ with
          | nil => simp [hs₂] at h
          | cons c s₃ =>
              rw [hs₂] at h
              rw [skipSpace_append_cons hs₂]
              simp only at h ⊢
              split_ifs at h ⊢ with hcolon
              cases hv : value n s₃ with
              | none => simp [hv] at h
              | some p =>
                  obtain ⟨v, s₄⟩ := p
                  rw [hv] at h
                  rw [hvalue hle' hv]
                  simp only at h ⊢
                  cases hs₄ : skipSpace s₄ with
                  | nil => simp [hs₄] at h
                  | cons c rest =>
                      rw [hs₄] at h
                      rw [skipSpace_append_cons hs₄]
                      simp only at h ⊢
                      by_cases hc : c = comma
                      · rw [if_pos hc] at h ⊢
                        obtain ⟨⟨us, u⟩, hus, heq⟩ := Option.map_eq_some_iff.mp h
                        obtain ⟨rfl, rfl⟩ := Prod.mk.inj heq
                        rw [hmembers hle' hus, Option.map_some]
                      · rw [if_neg hc] at h ⊢
                        split_ifs at h ⊢
                        obtain ⟨rfl, rfl⟩ := Prod.mk.inj (Option.some.inj h)
                        rfl

theorem readers_local (hr : Boundary r) (n : Nat) :
    Local r n value ∧ Local r n items ∧ Local r n members := by
  induction n with
  | zero =>
      refine ⟨?_, ?_, ?_⟩
      · intro m s v t _ h
        simp [value] at h
      · intro m s vs t _ h
        simp [items] at h
      · intro m s ms t _ h
        simp [members] at h
  | succ n ih =>
      obtain ⟨hvalue, hitems, hmembers⟩ := ih
      exact ⟨value_append hr hitems hmembers, items_append hvalue hitems,
        members_append hvalue hmembers⟩

/-- **Reading a value is local**: with more steps, and before a text that does not continue a
    number, it is read as before. -/
theorem value_local (hr : Boundary r) (n : Nat) : Local r n value :=
  (readers_local hr n).1

/-! ## Reading what was written -/

theorem boundary_nil : Boundary [] := by
  intro c hc
  simp at hc

theorem boundary_cons {c : UInt8} (hc : c = comma ∨ c = closeBracket ∨ c = closeBrace) :
    Boundary (c :: r) := by
  intro d hd
  obtain rfl : c = d := by simpa using hd
  rcases hc with rfl | rfl | rfl <;> decide

theorem skipSpace_cons {c : UInt8} (hc : isSpace c = false) : skipSpace (c :: s) = c :: s := by
  unfold skipSpace
  rw [List.dropWhile_cons_of_neg (by simp [hc])]

theorem skipSpace_idem (s : Bytes) : skipSpace (skipSpace s) = skipSpace s := by
  induction s with
  | nil => rfl
  | cons c rest ih =>
      by_cases hc : isSpace c = true
      · have hskip : skipSpace (c :: rest) = skipSpace rest := List.dropWhile_cons_of_pos hc
        rw [hskip, ih]
      · rw [skipSpace_cons (by simpa using hc), skipSpace_cons (by simpa using hc)]

theorem value_skipSpace (n : Nat) (s : Bytes) : value n (skipSpace s) = value n s := by
  cases n with
  | zero => rfl
  | succ n =>
      simp only [value]
      rw [skipSpace_idem]

theorem items_skipSpace (n : Nat) (s : Bytes) : items n (skipSpace s) = items n s := by
  cases n with
  | zero => rfl
  | succ n =>
      simp only [items]
      rw [value_skipSpace]

theorem members_skipSpace (n : Nat) (s : Bytes) : members n (skipSpace s) = members n s := by
  cases n with
  | zero => rfl
  | succ n =>
      simp only [members]
      rw [skipSpace_idem]

/-- Nothing that starts with a closing bracket is an item. -/
theorem first_of_items {vs : List Value} (h : items n s = some (vs, t)) :
    ∃ d more, skipSpace s = d :: more ∧ d ≠ closeBracket := by
  rcases n with - | n
  · simp [items] at h
  rcases n with - | n
  · simp [items, value] at h
  cases hs : skipSpace s with
  | nil => simp [items, value, hs] at h
  | cons d more =>
      refine ⟨d, more, rfl, ?_⟩
      intro hd
      subst hd
      have hnone : value (n + 1) s = none := by
        simp only [value, hs]
        rfl
      simp [items, hnone] at h

theorem first_of_members (h : members n s = some (ms, t)) :
    ∃ more, skipSpace s = quote :: more := by
  rcases n with - | n
  · simp [members] at h
  cases hs : skipSpace s with
  | nil => simp [members, hs] at h
  | cons d more =>
      refine ⟨more, ?_⟩
      by_cases hd : d = quote
      · rw [hd]
      · simp [members, hs, hd] at h

theorem value_string {k : Bytes} (h : stringBody n s = some (k, t)) :
    value (n + 1) (quote :: s) = some (.string k, t) := by
  have hskip : skipSpace (quote :: s) = quote :: s := skipSpace_cons rfl
  simp only [value, hskip, h, if_true, Option.map_some]

theorem value_true (n : Nat) (t : Bytes) :
    value (n + 1) (trueName ++ t) = some (.bool true, t) := by
  have hskip : skipSpace (trueName ++ t) = trueName ++ t := skipSpace_cons rfl
  simp only [value, hskip]
  rfl

theorem value_false (n : Nat) (t : Bytes) :
    value (n + 1) (falseName ++ t) = some (.bool false, t) := by
  have hskip : skipSpace (falseName ++ t) = falseName ++ t := skipSpace_cons rfl
  simp only [value, hskip]
  rfl

theorem value_null (n : Nat) (t : Bytes) : value (n + 1) (nullName ++ t) = some (.null, t) := by
  have hskip : skipSpace (nullName ++ t) = nullName ++ t := skipSpace_cons rfl
  simp only [value, hskip]
  rfl

theorem value_emptyArray (n : Nat) (t : Bytes) :
    value (n + 1) (openBracket :: closeBracket :: t) = some (.array [], t) := by
  have hskip : skipSpace (openBracket :: closeBracket :: t) = openBracket :: closeBracket :: t :=
    skipSpace_cons rfl
  have hclose : skipSpace (closeBracket :: t) = closeBracket :: t := skipSpace_cons rfl
  simp only [value, hskip, hclose]
  rfl

theorem value_array {vs : List Value} (h : items n s = some (vs, t)) :
    value (n + 1) (openBracket :: s) = some (.array vs, t) := by
  obtain ⟨d, more, hd, hne⟩ := first_of_items h
  have hskip : skipSpace (openBracket :: s) = openBracket :: s := skipSpace_cons rfl
  have hitems : items n (d :: more) = some (vs, t) := by rw [← hd, items_skipSpace, h]
  simp only [value, hskip, hd, if_neg hne, hitems]
  rfl

theorem value_emptyObject (n : Nat) (t : Bytes) :
    value (n + 1) (openBrace :: closeBrace :: t) = some (.object [], t) := by
  have hskip : skipSpace (openBrace :: closeBrace :: t) = openBrace :: closeBrace :: t :=
    skipSpace_cons rfl
  have hclose : skipSpace (closeBrace :: t) = closeBrace :: t := skipSpace_cons rfl
  simp only [value, hskip, hclose]
  rfl

theorem value_object (h : members n s = some (ms, t)) :
    value (n + 1) (openBrace :: s) = some (.object ms, t) := by
  obtain ⟨more, hd⟩ := first_of_members h
  have hskip : skipSpace (openBrace :: s) = openBrace :: s := skipSpace_cons rfl
  have hmembers : members n (quote :: more) = some (ms, t) := by
    rw [← hd, members_skipSpace, h]
  have hne : quote ≠ closeBrace := by decide
  simp only [value, hskip, hd, if_neg hne, hmembers]
  rfl

theorem items_last {u : Bytes} (h : value n s = some (v, u))
    (hu : skipSpace u = closeBracket :: rest) : items (n + 1) s = some ([v], rest) := by
  simp only [items, h, hu]
  rfl

theorem items_cons {u : Bytes} {vs : List Value} (h : value n s = some (v, u))
    (hu : skipSpace u = comma :: rest) (hrest : items n rest = some (vs, t)) :
    items (n + 1) s = some (v :: vs, t) := by
  simp only [items, h, hu, hrest]
  rfl

theorem members_last {w u k : Bytes} (hk : stringBody n s = some (k, colon :: w))
    (h : value n w = some (v, u)) (hu : skipSpace u = closeBrace :: rest) :
    members (n + 1) (quote :: s) = some ([(k, v)], rest) := by
  have hquote : skipSpace (quote :: s) = quote :: s := skipSpace_cons rfl
  have hcolon : skipSpace (colon :: w) = colon :: w := skipSpace_cons rfl
  simp only [members, hquote, hk, hcolon, h, hu]
  rfl

theorem members_cons {w u k : Bytes} (hk : stringBody n s = some (k, colon :: w))
    (h : value n w = some (v, u)) (hu : skipSpace u = comma :: rest)
    (hrest : members n rest = some (ms, t)) :
    members (n + 1) (quote :: s) = some ((k, v) :: ms, t) := by
  have hquote : skipSpace (quote :: s) = quote :: s := skipSpace_cons rfl
  have hcolon : skipSpace (colon :: w) = colon :: w := skipSpace_cons rfl
  simp only [members, hquote, hk, hcolon, h, hu, hrest]
  rfl

theorem parse_of_value {u : Bytes} (h : value (s.length + 1) s = some (v, u))
    (hu : skipSpace u = []) : parse s = some v := by
  simp only [parse, h, hu, if_true]

/-- **A JSON text inside a longer one** is read with the same result, up to the spaces at its
    end. -/
theorem value_of_parse (h : parse s = some v) (hr : Boundary r) (hn : s.length + 1 ≤ n) :
    ∃ u, value n (s ++ r) = some (v, u) ∧ skipSpace u = skipSpace r := by
  unfold parse at h
  cases hv : value (s.length + 1) s with
  | none => simp [hv] at h
  | some p =>
      obtain ⟨w, t⟩ := p
      simp only [hv] at h
      split_ifs at h with ht
      obtain rfl := Option.some.inj h
      refine ⟨t ++ r, value_local hr _ hn hv, ?_⟩
      unfold skipSpace at ht ⊢
      rw [List.dropWhile_append]
      simp [ht]

/-! ## Numbers written in decimal -/

def digitOf (d : Nat) : UInt8 := 0x30 + d.toUInt8

/-- The decimal digits of a number. -/
def natText (n : Nat) : Bytes :=
  if n = 0 then [0x30] else (Nat.digits 10 n).reverse.map digitOf

def integerText (i : Int) : Bytes :=
  if i < 0 then minus :: natText i.natAbs else natText i.natAbs

theorem digitOf_toNat {d : Nat} (hd : d < 10) : (digitOf d).toNat = 0x30 + d := by
  interval_cases d <;> rfl

theorem isDigit_digitOf {d : Nat} (hd : d < 10) : isDigit (digitOf d) = true := by
  interval_cases d <;> rfl

theorem isDigit_of_mem_natText {c : UInt8} (h : c ∈ natText n) : isDigit c = true := by
  unfold natText at h
  split_ifs at h with hn
  · obtain rfl := List.mem_singleton.mp h
    rfl
  · obtain ⟨d, hd, rfl⟩ := List.mem_map.mp h
    exact isDigit_digitOf (Nat.digits_lt_base (by omega) (List.mem_reverse.mp hd))

theorem natOf_append (ds : Bytes) (c : UInt8) :
    natOf (ds ++ [c]) = 10 * natOf ds + (c.toNat - 0x30) := by
  unfold natOf
  rw [List.foldl_append]
  rfl

theorem natOf_digits {ds : List Nat} (h : ∀ d ∈ ds, d < 10) :
    natOf (ds.reverse.map digitOf) = Nat.ofDigits 10 ds := by
  induction ds with
  | nil => rfl
  | cons d rest ih =>
      have hd : d < 10 := h d List.mem_cons_self
      rw [List.reverse_cons, List.map_append, List.map_singleton, natOf_append,
        ih (fun e he => h e (List.mem_cons_of_mem d he)), digitOf_toNat hd, Nat.ofDigits_cons]
      omega

theorem natOf_natText (n : Nat) : natOf (natText n) = n := by
  unfold natText
  split_ifs with hn
  · rw [hn]
    rfl
  · rw [natOf_digits fun d hd => Nat.digits_lt_base (by omega) hd, Nat.ofDigits_digits]

theorem natText_ne_nil (n : Nat) : natText n ≠ [] := by
  unfold natText
  split_ifs with hn
  · simp
  · simp [Nat.digits_ne_nil_iff_ne_zero.mpr hn]

/-- No leading zero but in `0` itself. -/
theorem natText_head (n : Nat) :
    ¬ ((natText n).head? = some 0x30 ∧ (natText n).length ≠ 1) := by
  unfold natText
  split_ifs with hn
  · simp
  · rintro ⟨hhead, -⟩
    have hne : Nat.digits 10 n ≠ [] := Nat.digits_ne_nil_iff_ne_zero.mpr hn
    have hlast := Nat.getLast_digit_ne_zero 10 hn
    have hlt : (Nat.digits 10 n).getLast hne < 10 :=
      Nat.digits_lt_base (by omega) (List.getLast_mem hne)
    rw [List.head?_map, List.head?_reverse, List.getLast?_eq_some_getLast hne,
      Option.map_some, Option.some.injEq] at hhead
    have hval := congrArg UInt8.toNat hhead
    rw [digitOf_toNat hlt] at hval
    have hzero : (0x30 : UInt8).toNat = 0x30 := rfl
    omega

theorem digits_natText (hr : Boundary r) : digits (natText n ++ r) = (natText n, r) := by
  have hall : digits (natText n) = (natText n, []) := by
    unfold digits
    rw [List.takeWhile_eq_self_iff.mpr fun c hc => isDigit_of_mem_natText hc,
      List.dropWhile_eq_nil_iff.mpr fun c hc => isDigit_of_mem_natText hc]
  rw [digits_append hr, hall, List.nil_append]

theorem fraction_boundary (hr : Boundary r) : fraction r = some ([], r) := by
  rcases r with - | ⟨c, rest⟩
  · rfl
  · simp [fraction, (hr c rfl).2.1]

theorem exponent_boundary (hr : Boundary r) : exponent r = some ([], r) := by
  rcases r with - | ⟨c, rest⟩
  · rfl
  · simp [exponent, (hr c rfl).2.2]

/-- **An integer is read back**. -/
theorem number_integerText (i : Int) (hr : Boundary r) :
    number (integerText i ++ r) = some (.integer i, r) := by
  have hsplit : sign (integerText i ++ r) =
      (if i < 0 then [minus] else [], natText i.natAbs ++ r) := by
    unfold integerText
    split_ifs with hneg
    · rfl
    · obtain ⟨c, more, hcons⟩ := List.exists_cons_of_ne_nil (natText_ne_nil i.natAbs)
      have hdigit : isDigit c = true :=
        isDigit_of_mem_natText (by rw [hcons]; exact List.mem_cons_self)
      have hne : c ≠ minus := by
        rintro rfl
        exact absurd hdigit (by decide)
      simp [hcons, sign, hne]
  unfold number
  simp only [hsplit, digits_natText hr, fraction_boundary hr, exponent_boundary hr]
  rw [if_neg (by simpa [natText_ne_nil] using natText_head i.natAbs), natOf_natText,
    if_pos ⟨trivial, trivial⟩]
  by_cases hneg : i < 0
  · rw [if_pos hneg, if_neg (List.cons_ne_nil minus [])]
    have hval : -(i.natAbs : Int) = i := by omega
    rw [hval]
  · rw [if_neg hneg, if_pos rfl]
    have hval : (i.natAbs : Int) = i := by omega
    rw [hval]

theorem value_integer (i : Int) (hr : Boundary r) :
    value (n + 1) (integerText i ++ r) = some (.integer i, r) := by
  obtain ⟨c, more, hcons, hc⟩ : ∃ c more, integerText i = c :: more ∧
      (c = minus ∨ isDigit c = true) := by
    unfold integerText
    split_ifs with hneg
    · exact ⟨minus, natText i.natAbs, rfl, .inl rfl⟩
    · obtain ⟨c, more, hcons⟩ := List.exists_cons_of_ne_nil (natText_ne_nil i.natAbs)
      exact ⟨c, more, hcons, .inr (isDigit_of_mem_natText (by rw [hcons]; exact List.mem_cons_self))⟩
  have hnumber := number_integerText i hr
  rw [hcons, List.cons_append] at hnumber ⊢
  have hother : ∀ d : UInt8, isDigit d = false → d ≠ minus → c ≠ d := by
    rintro d hd hdm rfl
    rcases hc with rfl | hc
    · exact hdm rfl
    · rw [hc] at hd
      exact Bool.noConfusion hd
  have hspace : isSpace c = false := by
    by_contra hsp
    have hsp' : isSpace c = true := by simpa using hsp
    simp only [isSpace, Bool.or_eq_true, decide_eq_true_eq] at hsp'
    rcases hsp' with ((h | h) | h) | h
    · exact hother _ rfl (by decide) h
    · exact hother _ rfl (by decide) h
    · exact hother _ rfl (by decide) h
    · exact hother _ rfl (by decide) h
  simp only [value, skipSpace_cons hspace]
  rw [if_neg (hother quote rfl (by decide)), if_neg (hother openBracket rfl (by decide)),
    if_neg (hother openBrace rfl (by decide)), if_neg (hother 0x74 rfl (by decide)),
    if_neg (hother 0x66 rfl (by decide)), if_neg (hother 0x6E rfl (by decide))]
  exact hnumber

end JsonText
