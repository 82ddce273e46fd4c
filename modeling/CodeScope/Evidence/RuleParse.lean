import CodeScope.Evidence.RuleTrees

/-! # Rule files and JSON

Against the grammar of JSON, the parser of the rule files accepts every text within its limit whose
numbers are in the range of a `double`, and takes each `\u` for a code unit by itself. What it
accepts has the layout of a JSON text. -/

namespace CodeScope.Evidence.RuleJson

open JsonText JsonSyntax

variable {D : Type} {toDouble : Bool → ℚ → Option D}

/-! ## The whole text -/

theorem found_map {α : Type} (r : Result α) :
    (r.map fun e => e.map Prod.fst).bind Except.toOption = (found r).map Prod.fst := by
  rcases r with - | (e | p) <;> rfl

theorem skipWhitespace_eq_nil {s : Bytes} : skipWhitespace s = [] ↔ (Token.blank s).Shaped :=
  List.dropWhile_eq_nil_iff

/-- What `parse` finds: a value, and only blanks behind it. -/
theorem parse_found (s : Bytes) :
    (parse toDouble s).bind Except.toOption =
      if skipWhitespace s = [] then none
      else (found (parseValue toDouble s.length (2 * s.length + 2) 0 (skipWhitespace s))).bind
        fun p => if skipWhitespace p.2 = [] then some p.1 else none := by
  unfold parse
  dsimp only
  split_ifs with hempty
  · rfl
  · rw [found_map, found_andThen]
    cases found (parseValue toDouble s.length (2 * s.length + 2) 0 (skipWhitespace s)) with
    | none => rfl
    | some p =>
        by_cases hback : skipWhitespace p.2 = []
        · simp [hback, found_ok]
        · simp [hback, found_error]

/-- The parser on a text with a layout. -/
theorem parse_text {L : Layout} (h : L.All Token.Shaped) (hdepth : L.tree.depth ≤ kMaxDepth) :
    (parse toDouble L.text).bind Except.toOption =
      L.tree.eval (codeNumber toDouble) codeString := by
  obtain ⟨front, t, back⟩ := L
  obtain ⟨hfront, ht, hback⟩ := h
  have hskip : skipWhitespace (Layout.text ⟨front, t, back⟩) = t.text ++ back := by
    rw [skipWhitespace, Layout.text, skipSpace_blank hfront]
    exact (t.solid_text ht back).skipSpace_eq
  have hne : t.text ++ back ≠ [] := by
    have hpos := length_text_pos t ht
    intro hnil
    rw [(List.append_eq_nil_iff.mp hnil).1] at hpos
    exact absurd hpos (Nat.lt_irrefl 0)
  have hends : Ends back := by
    rw [← List.append_nil back]
    exact ends_blank hback ends_nil
  have hfuel : steps .value t.text.length ≤ 2 * (Layout.text ⟨front, t, back⟩).length + 2 := by
    simp only [steps, Layout.text, List.length_append]
    omega
  have hrun : ∀ total, found (parseValue toDouble total _ 0 (t.text ++ back)) = _ :=
    fun total => @run_text total _ _ _ _ _ t ht back hends hfuel (by simpa using hdepth)
  rw [parse_found, hskip, if_neg hne, hrun]
  dsimp only
  cases t.eval (codeNumber toDouble) codeString with
  | none => rfl
  | some v => exact if_pos (skipWhitespace_eq_nil.mpr hback)

/-- What the parser accepts has a layout. -/
theorem parse_sound {s : Bytes} {v : Val D} (h : parse toDouble s = some (.ok v)) :
    ∃ L : Layout, L.All Token.Shaped ∧ L.text = s ∧ L.tree.depth ≤ kMaxDepth := by
  have hfound : (parse toDouble s).bind Except.toOption = some v := by
    rw [h]
    rfl
  rw [parse_found] at hfound
  split_ifs at hfound
  obtain ⟨⟨w, r⟩, hw, hback⟩ := Option.bind_eq_some_iff.mp hfound
  dsimp only at hback
  split_ifs at hback with hr
  obtain ⟨front, hfront, hsplit⟩ := skipWhitespace_split s
  obtain ⟨gap, t, hgap, ht, htext, hdepth, -⟩ :=
    run_sound (2 * s.length + 2) .value 0 (skipWhitespace s) w r hw
  refine ⟨⟨front ++ gap, t, r⟩, ⟨?_, ht, skipWhitespace_eq_nil.mp hr⟩, ?_, by simpa using hdepth⟩
  · intro c hc
    rcases List.mem_append.mp hc with hc | hc
    · exact hfront c hc
    · exact hgap c hc
  · rw [hsplit, htext, Layout.text, List.append_assoc]

/-- **The parser ends** on every text. -/
theorem parse_ends (s : Bytes) : parse toDouble s ≠ none := by
  have hskip := length_skipWhitespace s
  have hvalue : parseValue toDouble s.length (2 * s.length + 2) 0 (skipWhitespace s) ≠ none :=
    run_ends (2 * s.length + 2) .value 0 (skipWhitespace s) (by simp only [steps]; omega)
  unfold parse
  dsimp only
  split_ifs with hempty
  · exact Option.some_ne_none _
  · intro hnone
    refine andThen_ne_none hvalue ?_ (Option.map_eq_none_iff.mp hnone)
    intro v t _
    split_ifs <;> exact Option.some_ne_none _

/-- **The texts that are accepted**: those with a layout within the limit whose numbers and escapes
    the conversions take. -/
theorem parse_accepts_iff {s : Bytes} :
    (∃ v, parse toDouble s = some (.ok v)) ↔
      ∃ L : Layout, L.All Token.Shaped ∧ L.text = s ∧ L.tree.depth ≤ kMaxDepth ∧
        L.tree.All (Token.Means (codeNumber toDouble) codeString) := by
  constructor
  · rintro ⟨v, hv⟩
    obtain ⟨L, hshaped, rfl, hdepth⟩ := parse_sound hv
    have htext : _ = L.tree.eval (codeNumber toDouble) codeString := parse_text hshaped hdepth
    rw [hv] at htext
    exact ⟨L, hshaped, rfl, hdepth, (eval_isSome_iff L.tree).mp (by rw [← htext]; rfl)⟩
  · rintro ⟨L, hshaped, rfl, hdepth, hmeans⟩
    obtain ⟨v, hv⟩ := Option.isSome_iff_exists.mp ((eval_isSome_iff L.tree).mpr hmeans)
    rw [← parse_text hshaped hdepth, Option.bind_eq_some_iff] at hv
    obtain ⟨r, hr, hok⟩ := hv
    exact ⟨v, by rw [hr, toOption_eq_some hok]⟩

/-! ## Escapes -/

theorem hexValue_lt {c : UInt8} {n : ℕ} (h : hexValue c = some n) : n < 16 := by
  unfold hexValue at h
  have hnat := c.toNat_lt
  split_ifs at h with hdigit hlower hupper
  · simp only [isDigit, Bool.and_eq_true, decide_eq_true_iff, UInt8.le_iff_toNat_le] at hdigit
    have hvalue := Option.some.inj h
    have hnine : (0x39 : UInt8).toNat = 0x39 := rfl
    omega
  · simp only [Bool.and_eq_true, decide_eq_true_iff, UInt8.le_iff_toNat_le] at hlower
    have hvalue := Option.some.inj h
    have hf : (0x66 : UInt8).toNat = 0x66 := rfl
    omega
  · simp only [Bool.and_eq_true, decide_eq_true_iff, UInt8.le_iff_toNat_le] at hupper
    have hvalue := Option.some.inj h
    have hf : (0x46 : UInt8).toNat = 0x46 := rfl
    omega

theorem codeUnit_eq_some {a b c d : UInt8} {u : ℕ} (h : codeUnit a b c d = some u) :
    ∃ w x y z, hexValue a = some w ∧ hexValue b = some x ∧ hexValue c = some y ∧
      hexValue d = some z ∧ u = 4096 * w + 256 * x + 16 * y + z := by
  simp only [codeUnit, Option.bind_eq_some_iff, Option.map_eq_some_iff] at h
  obtain ⟨w, hw, x, hx, y, hy, z, hz, rfl⟩ := h
  exact ⟨w, x, y, z, hw, hx, hy, hz, rfl⟩

theorem codeUnit_lt {a b c d : UInt8} {u : ℕ} (h : codeUnit a b c d = some u) : u < 0x10000 := by
  obtain ⟨w, x, y, z, hw, hx, hy, hz, rfl⟩ := codeUnit_eq_some h
  have hw := hexValue_lt hw
  have hx := hexValue_lt hx
  have hy := hexValue_lt hy
  have hz := hexValue_lt hz
  omega

theorem isHexDigit_ne {c : UInt8} (h : isHexDigit c = true) :
    isspace c = false ∧ c ≠ minus ∧ c ≠ plus ∧ c ≠ 0x78 ∧ c ≠ 0x58 := by
  refine ⟨?_, ?_, ?_, ?_, ?_⟩
  · by_contra hspace
    have hlow : c.toNat < 0x30 := by
      have hc : isspace c = true := by simpa using hspace
      simp only [isspace, Bool.or_eq_true, Bool.and_eq_true, decide_eq_true_iff] at hc
      rcases hc with rfl | ⟨-, hc⟩
      · decide
      · exact lt_of_le_of_lt (UInt8.le_iff_toNat_le.mp hc) (by decide)
    have hnone : hexValue c = none := by
      simp only [hexValue, isDigit, Bool.and_eq_true, decide_eq_true_iff, UInt8.le_iff_toNat_le]
      have h₁ : (0x30 : UInt8).toNat = 0x30 := rfl
      have h₂ : (0x61 : UInt8).toNat = 0x61 := rfl
      have h₃ : (0x41 : UInt8).toNat = 0x41 := rfl
      rw [if_neg (by omega), if_neg (by omega), if_neg (by omega)]
    rw [isHexDigit, hnone] at h
    cases h
  all_goals
    rintro rfl
    exact absurd h (by decide)

theorem stoul_codeUnit {a b c d : UInt8} {u : ℕ} (h : codeUnit a b c d = some u) :
    stoul [a, b, c, d] = some u := by
  obtain ⟨w, x, y, z, hw, hx, hy, hz, rfl⟩ := codeUnit_eq_some h
  have hhex : isHexDigit a = true ∧ isHexDigit b = true ∧ isHexDigit c = true ∧
      isHexDigit d = true := by
    simp [isHexDigit, hw, hx, hy, hz]
  obtain ⟨ha, hb, hc, hd⟩ := hhex
  obtain ⟨hspace, hminus, hplus, -, -⟩ := isHexDigit_ne ha
  obtain ⟨-, -, -, hlower, hupper⟩ := isHexDigit_ne hb
  unfold stoul
  rw [List.dropWhile_cons_of_neg (by simp [hspace])]
  simp [hminus, hplus, hlower, hupper, ha, hb, hc, hd, hw, hx, hy, hz]
  omega

/-- The bytes of a code unit are those of UTF-8. -/
theorem codeBytes_utf8 {u : ℕ} (h : u < 0x10000) : codeBytes u = utf8 u := by
  have hmod : u % 2 ^ 32 = u := Nat.mod_eq_of_lt (by omega)
  have htwo : ∀ b < 64, 0xC0 ||| b = 0xC0 + b :=
    fun b hb => (Nat.two_pow_add_eq_or_of_lt (i := 6) hb 3).symm
  have hthree : ∀ b < 32, 0xE0 ||| b = 0xE0 + b :=
    fun b hb => (Nat.two_pow_add_eq_or_of_lt (i := 5) hb 7).symm
  have hmore : ∀ b < 64, 0x80 ||| b = 0x80 + b :=
    fun b hb => (Nat.two_pow_add_eq_or_of_lt (i := 6) hb 2).symm
  have hmask : ∀ n, n &&& 0x3F = n % 64 := fun n => Nat.and_two_pow_sub_one_eq_mod n 6
  have hsix : ∀ n, n >>> 6 = n / 64 := fun n => Nat.shiftRight_eq_div_pow n 6
  have htwelve : ∀ n, n >>> 12 = n / 4096 := fun n => Nat.shiftRight_eq_div_pow n 12
  unfold codeBytes utf8
  dsimp only
  rw [hmod]
  split_ifs
  · rfl
  · rw [hmask, hsix, htwo (u / 64) (by omega), hmore (u % 64) (by omega)]
  · rw [hmask, hmask, hsix, htwelve, hthree (u / 4096) (by omega),
      hmore (u / 64 % 64) (by omega), hmore (u % 64) (by omega)]

/-! ## JSON -/

open Classical in
/-- The number that a token of JSON denotes, as a `double`. -/
noncomputable def denotedNumber (toDouble : Bool → ℚ → Option D) (token : Bytes) : Option D :=
  if h : ∃ n : NumberText, n.IsJson ∧ token = n.text then
    toDouble h.choose.negative h.choose.magnitude
  else none

theorem denotedNumber_text {n : NumberText} (h : n.IsJson) :
    denotedNumber toDouble n.text = toDouble n.negative n.magnitude := by
  have hex : ∃ m : NumberText, m.IsJson ∧ n.text = m.text := ⟨n, h, rfl⟩
  have hsame : hex.choose = n :=
    number_text_injective hex.choose_spec.1.toFits h.toFits hex.choose_spec.2.symm
  rw [denotedNumber, dif_pos hex, hsame]

theorem codeNumber_text {n : NumberText} (h : n.Fits) :
    codeNumber toDouble n.text = toDouble n.negative n.magnitude := by
  unfold codeNumber stod
  rw [readNumber_text h, Option.bind_some]
  cases toDouble n.negative n.magnitude <;> rfl

theorem codePiece_json {p : Piece} (h : p.IsJson) : codePiece p = some p.bytes := by
  cases p with
  | raw c => rfl
  | short c =>
      obtain ⟨e, he⟩ := Option.isSome_iff_exists.mp h
      simp [codePiece, Piece.bytes, he]
  | unicode a b c d =>
      obtain ⟨u, hu⟩ := Option.isSome_iff_exists.mp h
      rw [codePiece, stoul_codeUnit hu, Option.map_some, codeBytes_utf8 (codeUnit_lt hu),
        Piece.bytes, hu, Option.getD_some]

theorem codeString_json {pieces : List Piece} (h : (Token.string pieces).IsJson) :
    codeString pieces = some (units pieces) := by
  induction pieces with
  | nil => rfl
  | cons p ps ih =>
      rw [codeString, codePiece_json (h p List.mem_cons_self),
        ih fun q hq => h q (List.mem_cons_of_mem p hq)]
      rfl

theorem agree_json {token : Token} (h : token.IsJson) :
    token.Agree (codeNumber toDouble) (denotedNumber toDouble) codeString
      fun pieces => some (units pieces) := by
  cases token with
  | blank s => trivial
  | string pieces => exact codeString_json h
  | number s =>
      obtain ⟨n, hn, rfl⟩ := h
      exact (codeNumber_text hn.toFits).trans (denotedNumber_text hn).symm

/-- A number in the range of a `double`. -/
def InRange (toDouble : Bool → ℚ → Option D) : Token → Prop
  | .number token => (denotedNumber toDouble token).isSome
  | _ => True

/-- What the parser does with a text of JSON: it accepts the text when the nesting is within its
    limit and the numbers are in the range of a `double`, and then gives the value that the text
    denotes, each escape taken by itself. -/
structure ReadsJson (toDouble : Bool → ℚ → Option D) (L : Layout) (r : Except Bytes (Val D)) :
    Prop where
  accepts : (∃ v, r = .ok v) ↔ L.tree.depth ≤ kMaxDepth ∧ L.tree.All (InRange toDouble)
  value : ∀ v, r = .ok v →
    L.tree.eval (denotedNumber toDouble) (fun pieces => some (units pieces)) = some v
  value_of_noPair : L.tree.All Token.NoPair → ∀ v, r = .ok v →
    L.tree.eval (denotedNumber toDouble) (fun pieces => some (decode pieces)) = some v

theorem readsJson {L : Layout} (h : L.IsJsonText) {r : Except Bytes (Val D)}
    (hr : parse toDouble L.text = some r) : ReadsJson toDouble L r := by
  have hshaped : L.All Token.Shaped := h.grammar.imp fun _ => Token.IsJson.shaped
  have heval : L.tree.eval (codeNumber toDouble) codeString =
      L.tree.eval (denotedNumber toDouble) fun pieces => some (units pieces) :=
    eval_congr L.tree fun token htoken => agree_json (h.grammar.2.1 token htoken)
  -- what was accepted has a layout within the limit, and the text has no other
  have hlimit : ∀ v, r = .ok v → L.tree.depth ≤ kMaxDepth := by
    rintro v rfl
    obtain ⟨L', hshaped', htext, hdepth⟩ := parse_sound hr
    rw [← Layout.eq_of_text hshaped' hshaped htext]
    exact hdepth
  have hvalue : L.tree.depth ≤ kMaxDepth → r.toOption =
      L.tree.eval (denotedNumber toDouble) fun pieces => some (units pieces) := by
    intro hdepth
    have htext : _ = L.tree.eval (codeNumber toDouble) codeString := parse_text hshaped hdepth
    rwa [hr, heval] at htext
  have hrange : (L.tree.eval (denotedNumber toDouble) fun pieces => some (units pieces)).isSome ↔
      L.tree.All (InRange toDouble) := by
    rw [eval_isSome_iff]
    refine forall₂_congr fun token _ => ?_
    cases token <;> simp [Token.Means, InRange]
  have hread : ∀ v, r = .ok v →
      L.tree.eval (denotedNumber toDouble) (fun pieces => some (units pieces)) = some v := by
    intro v hv
    rw [← hvalue (hlimit v hv), hv]
    rfl
  refine ⟨⟨?_, ?_⟩, hread, ?_⟩
  · rintro ⟨v, hv⟩
    exact ⟨hlimit v hv, hrange.mp (by rw [hread v hv]; rfl)⟩
  · rintro ⟨hdepth, hnumbers⟩
    obtain ⟨v, hv⟩ := Option.isSome_iff_exists.mp (hrange.mpr hnumbers)
    rw [← hvalue hdepth] at hv
    exact ⟨v, toOption_eq_some hv⟩
  · intro hpairs v hv
    rw [← hread v hv]
    refine eval_congr L.tree fun token htoken => ?_
    cases token with
    | blank s => trivial
    | number s => rfl
    | string pieces => exact congrArg some (decode_eq_units (hpairs _ htoken))

/-- **The parser ends on every text**, accepts nothing without the layout of a JSON text within its
    limit, and accepts the JSON texts within its limit and the range of a `double` as what they
    denote. -/
theorem parse_correct (toDouble : Bool → ℚ → Option D) (s : Bytes) :
    ∃ r, parse toDouble s = some r ∧
      (∀ v, r = .ok v →
        ∃ L : Layout, L.All Token.Shaped ∧ L.text = s ∧ L.tree.depth ≤ kMaxDepth) ∧
      ∀ L : Layout, L.IsJsonText → L.text = s → ReadsJson toDouble L r := by
  obtain ⟨r, hr⟩ := Option.ne_none_iff_exists'.mp (@parse_ends D toDouble s)
  refine ⟨r, hr, ?_, ?_⟩
  · rintro v rfl
    exact parse_sound hr
  · rintro L hL rfl
    exact readsJson hL hr

/-! ## Where the parser is no JSON parser -/

/-- A text on which the parser does as a parser of JSON would: it accepts the JSON texts within the
    limit, and nothing else, with the value that is denoted. -/
def ExactlyJson (toDouble : Bool → ℚ → Option D) (s : Bytes) : Prop :=
  ∃ r, parse toDouble s = some r ∧
    ((∃ v, r = .ok v) ↔
      ∃ L : Layout, L.IsJsonText ∧ L.text = s ∧ L.tree.depth ≤ kMaxDepth) ∧
    ∀ v, r = .ok v → ∃ L : Layout, L.IsJsonText ∧ L.text = s ∧
      L.tree.eval (denotedNumber toDouble) (fun pieces => some (decode pieces)) = some v

/-- The range of a `double`, exact within it. -/
def inDouble (negative : Bool) (q : ℚ) : Option ℚ :=
  if q < 2 ^ 1024 then some (if negative then -q else q) else none

/-- `\uD83D\uDE00`, the two surrogates of one character. -/
def pairPieces : List Piece :=
  [.unicode 0x44 0x38 0x33 0x44, .unicode 0x44 0x45 0x30 0x30]

/-- `1e400` -/
def hugeNumber : NumberText := ⟨false, [0x31], none, some (0x65, [], [0x34, 0x30, 0x30])⟩

theorem blank_nil : (Token.blank []).IsJson := fun _ hc => absurd hc List.not_mem_nil

theorem pair_json : (⟨[], .string pairPieces, []⟩ : Layout).IsJsonText := by
  refine ⟨⟨blank_nil, ?_, blank_nil⟩, ['"', '\\', 'u', 'D', '8', '3', 'D', '\\', 'u', 'D', 'E', '0',
    '0', '"'], by decide⟩
  intro token htoken
  rw [List.mem_singleton.mp htoken]
  intro p hp
  simp only [pairPieces, List.mem_cons, List.not_mem_nil, or_false] at hp
  rcases hp with rfl | rfl <;> decide

theorem huge_json : hugeNumber.IsJson where
  whole := by simp [hugeNumber, isDigit]
  fraction := by simp [hugeNumber]
  some_digit := by simp [hugeNumber]
  exponent := ⟨rfl, Or.inl rfl, by simp, by simp [isDigit]⟩
  whole_ne := by simp [hugeNumber]
  no_zero := by simp [hugeNumber]
  fraction_ne := by simp [hugeNumber]

theorem huge_out_of_range : denotedNumber inDouble hugeNumber.text = none := by
  have hmagnitude : hugeNumber.magnitude = (10 : ℚ) ^ (400 : ℤ) := by
    simp [NumberText.magnitude, NumberText.power, hugeNumber, natOf, minus]
  have hlarge : (2 : ℚ) ^ 1024 ≤ 10 ^ (400 : ℤ) := calc
    (2 : ℚ) ^ 1024 ≤ 2 ^ (3 * 400) := pow_le_pow_right₀ (by norm_num) (by norm_num)
    _ = (2 ^ 3) ^ 400 := pow_mul 2 3 400
    _ ≤ 10 ^ 400 := pow_le_pow_left₀ (by norm_num) (by norm_num) 400
    _ = 10 ^ (400 : ℤ) := rfl
  rw [denotedNumber_text huge_json, hmagnitude]
  exact if_neg (not_lt.mpr hlarge)

theorem huge_text_json : (⟨[], .number hugeNumber.text, []⟩ : Layout).IsJsonText := by
  refine ⟨⟨blank_nil, ?_, blank_nil⟩, ['1', 'e', '4', '0', '0'], by decide⟩
  intro token htoken
  rw [List.mem_singleton.mp htoken]
  exact ⟨hugeNumber, huge_json, rfl⟩

/-- Two surrogates are not put together, and a number out of range is refused. -/
theorem surrogates_and_range :
    ¬ ExactlyJson inDouble (quoted pairPieces) ∧ ¬ ExactlyJson inDouble hugeNumber.text := by
  constructor
  · rintro ⟨r, hr, ⟨-, haccepts⟩, hvalue⟩
    have htext : (⟨[], .string pairPieces, []⟩ : Layout).text = quoted pairPieces := by
      simp [Layout.text, Tree.text]
    have hreads : ReadsJson inDouble _ r := readsJson pair_json (by rw [htext, hr])
    obtain ⟨v, hv⟩ := haccepts ⟨_, pair_json, htext, by simp [Tree.depth, kMaxDepth]⟩
    obtain ⟨L, hL, hsame, heval⟩ := hvalue v hv
    obtain rfl := Layout.eq_of_text (hL.grammar.imp fun _ => Token.IsJson.shaped)
      (pair_json.grammar.imp fun _ => Token.IsJson.shaped) (hsame.trans htext.symm)
    rw [← hreads.value v hv] at heval
    have hsame : decode pairPieces = units pairPieces := Val.string.inj (Option.some.inj heval)
    exact absurd hsame (by decide)
  · rintro ⟨r, hr, ⟨-, haccepts⟩, -⟩
    have htext : (⟨[], .number hugeNumber.text, []⟩ : Layout).text = hugeNumber.text := by
      simp [Layout.text, Tree.text]
    have hreads : ReadsJson inDouble _ r := readsJson huge_text_json (by rw [htext, hr])
    obtain ⟨-, hrange⟩ := hreads.accepts.mp
      (haccepts ⟨_, huge_text_json, htext, by simp [Tree.depth, kMaxDepth]⟩)
    have hsome : (denotedNumber inDouble hugeNumber.text).isSome := hrange _ List.mem_cons_self
    rw [huge_out_of_range] at hsome
    cases hsome

end CodeScope.Evidence.RuleJson
