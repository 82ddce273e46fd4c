import CodeScope.Evidence.RuleJson

/-! # What the parser of the rule files reads

The parser follows the layout of a text: on the text of a tree it finds what the tree means when its
conversions take all tokens (`parseValue_text`), and whatever it finds is the meaning of a tree
(`parseValue_sound`). Its steps suffice (`parseValue_ends`). -/

namespace CodeScope.Evidence.RuleJson

open JsonText JsonSyntax

/-! ## Results -/

/-- What a step has found, if it has not failed. -/
def found {α : Type} (r : Result α) : Option (α × Bytes) := r.bind Except.toOption

section Found

variable {α β : Type}

theorem found_ok (a : α) (s : Bytes) : found (some (.ok (a, s))) = some (a, s) := rfl

theorem found_error (e : Bytes) : found (α := α) (some (.error e)) = none := rfl

theorem found_andThen (r : Result α) (f : α → Bytes → Result β) :
    found (andThen r f) = (found r).bind fun p => found (f p.1 p.2) := by
  rcases r with - | (e | ⟨a, s⟩) <;> rfl

theorem andThen_ne_none {r : Result α} {f : α → Bytes → Result β} (hr : r ≠ none)
    (hf : ∀ a s, found r = some (a, s) → f a s ≠ none) : andThen r f ≠ none := by
  rcases r with - | (e | ⟨a, s⟩)
  · exact absurd rfl hr
  · exact Option.some_ne_none _
  · exact hf a s rfl

end Found

/-! ## Strings -/

/-- What `parseString` appends for a piece; nothing when `stoul` throws. -/
def codePiece : Piece → Option Bytes
  | .raw c => some [c]
  | .short c => (shortEscape c).map fun e => [e]
  | .unicode a b c d => (stoul [a, b, c, d]).map codeBytes

def codeString : List Piece → Option Bytes
  | [] => some []
  | p :: ps => (codePiece p).bind fun front => (codeString ps).map fun back => front ++ back

variable {total : ℕ}

theorem stringLoop_quote (s r : Bytes) : stringLoop total s (quote :: r) = .ok (s, r) := by
  rw [stringLoop.eq_def]
  exact if_pos rfl

/-- One piece of a string. -/
theorem stringLoop_piece {p : Piece} (h : p.Shaped) (s r : Bytes) :
    (stringLoop total s (p.text ++ r)).toOption =
      (codePiece p).bind fun front => (stringLoop total (s ++ front) r).toOption := by
  have hback : backslash ≠ quote := by decide
  cases p with
  | raw c =>
      change (stringLoop total s (c :: r)).toOption = _
      rw [stringLoop.eq_def]
      simp only [h.1, h.2, if_false]
      rfl
  | short c =>
      obtain ⟨e, he⟩ := Option.isSome_iff_exists.mp h
      change (stringLoop total s (backslash :: c :: r)).toOption = _
      rw [stringLoop.eq_def]
      simp only [hback, if_false, if_true, he, codePiece]
      rfl
  | unicode a b c d =>
      change (stringLoop total s (backslash :: letterU :: a :: b :: c :: d :: r)).toOption = _
      have hu : shortEscape letterU = none := by decide
      rw [stringLoop.eq_def]
      simp only [hback, if_false, if_true, hu, codePiece]
      cases stoul [a, b, c, d] with
      | none => rfl
      | some n => rfl

/-- **A string literal is read** as what its pieces stand for. -/
theorem stringLoop_inside {pieces : List Piece} (h : ∀ p ∈ pieces, p.Shaped) (s r : Bytes) :
    (stringLoop total s (inside pieces ++ quote :: r)).toOption =
      (codeString pieces).map fun read => (s ++ read, r) := by
  induction pieces generalizing s with
  | nil =>
      change (stringLoop total s (quote :: r)).toOption = _
      rw [stringLoop_quote, codeString, Option.map_some, List.append_nil]
      rfl
  | cons p ps ih =>
      have hps := ih fun q hq => h q (List.mem_cons_of_mem p hq)
      rw [inside_cons, List.append_assoc, stringLoop_piece (h p List.mem_cons_self), codeString]
      cases codePiece p with
      | none => rfl
      | some front =>
          rw [Option.bind_some, Option.bind_some, hps (s ++ front), Option.map_map]
          congr 1
          funext back
          simp

/-- A string that was read is the text of pieces, up to a quote. -/
theorem stringLoop_sound {s text w r : Bytes} (h : stringLoop total s text = .ok (w, r)) :
    ∃ pieces read, (∀ p ∈ pieces, p.Shaped) ∧ text = inside pieces ++ quote :: r ∧
      codeString pieces = some read ∧ w = s ++ read := by
  have hpush : ∀ {p : Piece} {front s rest : Bytes}, p.Shaped → codePiece p = some front →
      (∃ pieces read, (∀ q ∈ pieces, q.Shaped) ∧ rest = inside pieces ++ quote :: r ∧
        codeString pieces = some read ∧ w = s ++ front ++ read) →
      ∃ pieces read, (∀ q ∈ pieces, q.Shaped) ∧ p.text ++ rest = inside pieces ++ quote :: r ∧
        codeString pieces = some read ∧ w = s ++ read := by
    rintro p front s rest hp hcode ⟨pieces, read, hpieces, rfl, hread, rfl⟩
    refine ⟨p :: pieces, front ++ read, ?_, ?_, ?_, List.append_assoc s front read⟩
    · intro q hq
      rcases List.mem_cons.mp hq with rfl | hq
      · exact hp
      · exact hpieces q hq
    · rw [inside_cons, List.append_assoc]
    · rw [codeString, hcode, hread]
      rfl
  -- the cases that remain are errors
  fun_induction stringLoop total s text with
  | case2 s rest =>
      obtain ⟨rfl, rfl⟩ := Prod.mk.inj (Except.ok.inj h)
      exact ⟨[], [], by simp, rfl, rfl, (List.append_nil s).symm⟩
  | case4 s esc rest e hesc hne ih =>
      exact hpush (p := .short esc) (by simp [Piece.Shaped, hesc]) (by simp [codePiece, hesc])
        (ih h)
  | case5 s h₁ h₂ h₃ h₄ rest code hcode hne hesc ih =>
      exact hpush (p := .unicode h₁ h₂ h₃ h₄) trivial (by simp [codePiece, hcode]) (ih h)
  | case9 s c rest hquote hback ih =>
      exact hpush (p := .raw c) ⟨hquote, hback⟩ rfl (ih h)
  | _ => cases h

theorem parseString_text {pieces : List Piece} (h : (Token.string pieces).Shaped) (r : Bytes) :
    (parseString total (quoted pieces ++ r)).toOption =
      (codeString pieces).map fun read => (read, r) := by
  rw [quoted_append]
  exact stringLoop_inside h [] r

theorem parseString_sound {s w r : Bytes} (h : parseString total (quote :: s) = .ok (w, r)) :
    ∃ pieces, (Token.string pieces).Shaped ∧ quote :: s = quoted pieces ++ r ∧
      codeString pieces = some w := by
  obtain ⟨pieces, read, hpieces, htext, hread, rfl⟩ := stringLoop_sound h
  refine ⟨pieces, hpieces, ?_, hread⟩
  rw [quoted_append]
  exact congrArg (List.cons quote) htext

/-! ## Numbers and names -/

section Values

variable {D : Type} {toDouble : Bool → ℚ → Option D}

/-- What `parseNumber` makes of a token; nothing when `stod` throws or leaves something. -/
def codeNumber (toDouble : Bool → ℚ → Option D) (token : Bytes) : Option D :=
  match stod toDouble token with
  | some (x, []) => some x
  | _ => none

theorem parseNumber_eq (s : Bytes) :
    (parseNumber toDouble total s).toOption =
      (codeNumber toDouble (s.takeWhile isNumberByte)).map fun x =>
        (.number x, s.dropWhile isNumberByte) := by
  have hsplit : ∃ front t, (if s.head? = some minus then [minus] else []) = front ∧
      (if s.head? = some minus then s.tail else s) = t ∧
      front ++ t.takeWhile isNumberByte = s.takeWhile isNumberByte ∧
      t.dropWhile isNumberByte = s.dropWhile isNumberByte := by
    by_cases hminus : s.head? = some minus
    · obtain ⟨t, rfl⟩ : ∃ t, s = minus :: t := by
        cases s with
        | nil => cases hminus
        | cons c t => exact ⟨t, by rw [Option.some.inj hminus]⟩
      have hbyte : isNumberByte minus = true := rfl
      refine ⟨[minus], t, if_pos hminus, if_pos hminus, ?_, ?_⟩
      · rw [List.takeWhile_cons_of_pos hbyte]
        rfl
      · rw [List.dropWhile_cons_of_pos hbyte]
    · exact ⟨[], s, if_neg hminus, if_neg hminus, rfl, rfl⟩
  obtain ⟨front, t, hfront, ht, htake, hdrop⟩ := hsplit
  unfold parseNumber codeNumber
  dsimp only
  rw [hfront, ht, htake, hdrop]
  rcases stod toDouble (s.takeWhile isNumberByte) with - | ⟨x, - | ⟨c, more⟩⟩ <;> rfl

theorem parseNumber_text {token r : Bytes} (h : (Token.number token).Shaped) (hr : Ends r) :
    (parseNumber toDouble total (token ++ r)).toOption =
      (codeNumber toDouble token).map fun x => (.number x, r) := by
  rw [parseNumber_eq, (number_split h.2 hr).1, (number_split h.2 hr).2]

theorem parseNumber_sound {c : UInt8} {s r : Bytes} {v : Val D} (hc : c = minus ∨ isDigit c = true)
    (h : parseNumber toDouble total (c :: s) = .ok (v, r)) :
    ∃ token x, (Token.number token).Shaped ∧ c :: s = token ++ r ∧
      codeNumber toDouble token = some x ∧ v = .number x := by
  have hfound := @parseNumber_eq total _ toDouble (c :: s)
  rw [h] at hfound
  obtain ⟨x, hx, hpair⟩ := Option.map_eq_some_iff.mp hfound.symm
  obtain ⟨rfl, rfl⟩ := Prod.mk.inj hpair
  have hbyte : isNumberByte c = true := by
    rcases hc with rfl | hc
    · rfl
    · exact isDigit_isNumberByte hc
  refine ⟨_, x, ⟨⟨c, s.takeWhile isNumberByte, List.takeWhile_cons_of_pos hbyte, hc⟩,
    fun d hd => List.mem_takeWhile_imp hd⟩, List.takeWhile_append_dropWhile.symm, hx, rfl⟩

theorem parseBool_sound {s r : Bytes} {v : Val D} (h : parseBool total s = .ok (v, r)) :
    ∃ b, s = (if b then trueName else falseName) ++ r ∧ v = .bool b := by
  unfold parseBool at h
  split_ifs at h with htrue hfalse
  · obtain ⟨rfl, rfl⟩ := Prod.mk.inj (Except.ok.inj h)
    exact ⟨true, by rw [if_pos rfl, ← htrue, List.take_append_drop], rfl⟩
  · obtain ⟨rfl, rfl⟩ := Prod.mk.inj (Except.ok.inj h)
    exact ⟨false, by rw [if_neg Bool.false_ne_true, ← hfalse, List.take_append_drop], rfl⟩

theorem parseNull_sound {s r : Bytes} {v : Val D} (h : parseNull total s = .ok (v, r)) :
    s = nullName ++ r ∧ v = .null := by
  unfold parseNull at h
  split_ifs at h with hnull
  obtain ⟨rfl, rfl⟩ := Prod.mk.inj (Except.ok.inj h)
  exact ⟨by rw [← hnull, List.take_append_drop], rfl⟩

end Values

/-! ## The text of a tree -/

section Text

variable {D : Type} {toDouble : Bool → ℚ → Option D} {fuel depth : ℕ}

theorem found_some {α : Type} (e : Except Bytes (α × Bytes)) : found (some e) = e.toOption := rfl

/-- The first byte decides, in the order of `parseValue`. -/
theorem parseValue_start {c : UInt8} (hc : isSpace c = false) (hdepth : depth + 1 ≤ kMaxDepth)
    (s : Bytes) :
    found (parseValue toDouble total (fuel + 1) depth (c :: s)) =
      match startOf c with
      | some .object =>
        found (parseObject (members toDouble total fuel (depth + 1)) (c :: s))
      | some .array => found (parseArray (items toDouble total fuel (depth + 1)) (c :: s))
      | some .string =>
        (parseString total (c :: s)).toOption.map fun p => (.string p.1, p.2)
      | some .bool => (parseBool total (c :: s)).toOption
      | some .null => (parseNull total (c :: s)).toOption
      | some .number => (parseNumber toDouble total (c :: s)).toOption
      | none => none := by
  have hskip : skipWhitespace (c :: s) = c :: s := (solid_cons hc s).skipSpace_eq
  rw [parseValue, if_neg (by omega), hskip]
  unfold startOf
  dsimp only
  split_ifs
  · rfl
  · rfl
  · cases parseString total (c :: s) <;> rfl
  · rfl
  · rfl
  · rfl
  · rfl

theorem parseValue_skip (s : Bytes) :
    found (parseValue toDouble total fuel depth (skipWhitespace s)) =
      found (parseValue toDouble total fuel depth s) := by
  cases fuel with
  | zero => rfl
  | succ fuel =>
      have hidem : skipWhitespace (skipWhitespace s) = skipWhitespace s := skipSpace_idem s
      rw [parseValue, parseValue, hidem]
      split_ifs <;> rfl

theorem items_skip (s : Bytes) :
    found (items toDouble total fuel depth (skipWhitespace s)) =
      found (items toDouble total fuel depth s) := by
  cases fuel with
  | zero => rfl
  | succ fuel =>
      rw [items, items, found_andThen, found_andThen, parseValue_skip]

theorem members_skip (s : Bytes) :
    found (members toDouble total fuel depth (skipWhitespace s)) =
      found (members toDouble total fuel depth s) := by
  cases fuel with
  | zero => rfl
  | succ fuel =>
      have hidem : skipWhitespace (skipWhitespace s) = skipWhitespace s := skipSpace_idem s
      rw [members, members, hidem]

/-- The function of the parser for each kind of tree. -/
def run (toDouble : Bool → ℚ → Option D) (total : ℕ) :
    (k : Kind) → ℕ → ℕ → Bytes → Result (Sem D k)
  | .value => parseValue toDouble total
  | .items => items toDouble total
  | .members => members toDouble total

/-- The steps for a text of a kind. -/
def steps (k : Kind) (n : ℕ) : ℕ :=
  match k with
  | .value => 2 * n + 1
  | .items => 2 * n + 2
  | .members => 2 * n + 2



theorem skipWhitespace_stop {back r : Bytes} {c : UInt8} (h : (Token.blank back).Shaped)
    (hc : isSpace c = false) : skipWhitespace (back ++ c :: r) = c :: r := by
  rw [skipWhitespace, skipSpace_blank h, skipSpace_cons hc]

theorem parseValue_blank {front : Bytes} (h : (Token.blank front).Shaped) (s : Bytes) :
    found (parseValue toDouble total fuel depth (front ++ s)) =
      found (parseValue toDouble total fuel depth s) := by
  rw [← parseValue_skip (front ++ s), skipWhitespace, skipSpace_blank h]
  exact parseValue_skip s

theorem length_text_pos (v : Tree .value) (h : v.All Token.Shaped) : 0 < v.text.length := by
  obtain ⟨c, s, hcons, -⟩ := v.text_start h
  rw [hcons]
  exact Nat.succ_pos _

theorem fuel_pos {k : Kind} {n : ℕ} (h : steps k n ≤ fuel) : ∃ m, fuel = m + 1 := by
  refine ⟨fuel - 1, ?_⟩
  cases k <;> simp only [steps] at h <;> omega

/-! ### Arrays and objects -/

section Between

variable {α : Type} {close c : UInt8} {wrap : List α → Val D} {loop : Bytes → Result (List α)}

theorem parseBetween_empty {blank : Bytes} (h : (Token.blank blank).Shaped)
    (hclose : isSpace close = false) (r : Bytes) :
    parseBetween close wrap loop (c :: (blank ++ close :: r)) = some (.ok (wrap [], r)) := by
  unfold parseBetween
  rw [List.tail_cons, skipWhitespace_stop h hclose]
  exact if_pos rfl

theorem parseBetween_loop {s : Bytes} (h : (skipWhitespace s).head? ≠ some close) :
    found (parseBetween close wrap loop (c :: s)) =
      (found (loop (skipWhitespace s))).map fun p => (wrap p.1, p.2) := by
  unfold parseBetween
  rw [List.tail_cons]
  dsimp only
  rw [if_neg h, found_andThen]
  cases found (loop (skipWhitespace s)) <;> rfl

end Between

theorem parseArray_items {items : Tree .items} (h : items.All Token.Shaped) (r : Bytes)
    (loop : Bytes → Result (List (Val D))) :
    found (parseArray loop (openBracket :: (items.text ++ r))) =
      (found (loop (skipWhitespace (items.text ++ r)))).map fun p => (.array p.1, p.2) := by
  obtain ⟨front, c, s, k, htext, hfront, hstart⟩ := items_front items h
  refine parseBetween_loop fun hhead => ?_
  rw [htext, List.append_assoc, List.cons_append,
    skipWhitespace_stop hfront (startOf_ne hstart).1] at hhead
  exact (startOf_ne hstart).2.1 (Option.some.inj hhead)

theorem parseObject_members {members : Tree .members} (h : members.All Token.Shaped) (r : Bytes)
    (loop : Bytes → Result (List (Bytes × Val D))) :
    found (parseObject loop (openBrace :: (members.text ++ r))) =
      (found (loop (skipWhitespace (members.text ++ r)))).map fun p => (.object p.1, p.2) := by
  obtain ⟨front, s, htext, hfront⟩ := members_front members h
  refine parseBetween_loop fun hhead => ?_
  rw [htext, List.append_assoc, List.cons_append, skipWhitespace_stop hfront rfl] at hhead
  exact absurd (Option.some.inj hhead) (by decide)

/-- A key and its colon, and then the value. -/
theorem members_key {front mid : Bytes} {key : List Piece} (hfront : (Token.blank front).Shaped)
    (hkey : (Token.string key).Shaped) (hmid : (Token.blank mid).Shaped) (s : Bytes) :
    found (members toDouble total (fuel + 1) depth
      (front ++ (quoted key ++ (mid ++ colon :: s)))) =
      (codeString key).bind fun name =>
        (found (parseValue toDouble total fuel depth s)).bind fun p =>
          let t := skipWhitespace p.2
          found (if t.head? = some comma then
              andThen (members toDouble total fuel depth t.tail) fun ms s =>
                some (.ok ((name, p.1) :: ms, s))
            else if t.head? = some closeBrace then some (.ok ([(name, p.1)], t.tail))
            else some (.error (setError total (ascii "expected ',' or '\x7d' in object") t))) := by
  have hskip : skipWhitespace (front ++ (quoted key ++ (mid ++ colon :: s))) =
      quoted key ++ (mid ++ colon :: s) := by
    rw [skipWhitespace, skipSpace_blank hfront]
    exact (solid_cons (c := quote) rfl _).skipSpace_eq
  have hhead : ¬ (quoted key ++ (mid ++ colon :: s)).head? ≠ some quote := fun h => h rfl
  rw [members, hskip]
  dsimp only
  rw [if_neg hhead, found_andThen, found_some, parseString_text hkey]
  cases codeString key with
  | none => rfl
  | some name =>
      rw [Option.map_some, Option.bind_some, Option.bind_some, skipWhitespace_stop hmid rfl,
        if_neg (fun h => h rfl), found_andThen]
      rfl

/-- **The parser on the text of a tree** finds what the tree means, if its conversions take all
    tokens. -/
theorem run_text {k : Kind} (t : Tree k) (h : t.All Token.Shaped) {r : Bytes} (hr : Ends r)
    (hfuel : steps k t.text.length ≤ fuel) (hdepth : depth + t.depth ≤ kMaxDepth) :
    found (run toDouble total k fuel depth (t.text ++ r)) =
      (t.eval (codeNumber toDouble) codeString).map fun v => (v, r) := by
  -- on the tree: each production of the parser follows one constructor, and `r` is what it leaves
  induction t generalizing fuel depth r with
  | null =>
      obtain ⟨fuel, rfl⟩ := fuel_pos hfuel
      exact (parseValue_start (c := 0x6E) rfl hdepth _).trans rfl
  | bool b =>
      obtain ⟨fuel, rfl⟩ := fuel_pos hfuel
      cases b with
      | false => exact (parseValue_start (c := 0x66) rfl hdepth _).trans rfl
      | true => exact (parseValue_start (c := 0x74) rfl hdepth _).trans rfl
  | number token =>
      obtain ⟨fuel, rfl⟩ := fuel_pos hfuel
      have htoken : (Token.number token).Shaped := h _ List.mem_cons_self
      obtain ⟨c, s, rfl, hc⟩ := htoken.1
      have hstart := startOf_digit hc
      refine (parseValue_start (startOf_ne hstart).1 hdepth _).trans ?_
      rw [hstart]
      change (parseNumber toDouble total ((c :: s) ++ r)).toOption = _
      rw [parseNumber_text htoken hr, Tree.eval, Option.map_map]
      rfl
  | string pieces =>
      obtain ⟨fuel, rfl⟩ := fuel_pos hfuel
      refine (parseValue_start (c := quote) rfl hdepth _).trans ?_
      change ((parseString total (quoted pieces ++ r)).toOption.map
        fun p => (Val.string p.1, p.2)) = _
      rw [parseString_text (h _ List.mem_cons_self), Tree.eval, Option.map_map, Option.map_map]
      rfl
  | emptyArray blank =>
      obtain ⟨fuel, rfl⟩ := fuel_pos hfuel
      refine (parseValue_start (c := openBracket) rfl hdepth _).trans ?_
      change found (parseArray _ (openBracket :: ((blank ++ [closeBracket]) ++ r))) = _
      rw [List.append_assoc, List.singleton_append, parseArray,
        parseBetween_empty (h _ List.mem_cons_self) rfl]
      rfl
  | array items ih =>
      obtain ⟨fuel, rfl⟩ := fuel_pos hfuel
      have hinner : found (run toDouble total .items fuel (depth + 1) (items.text ++ r)) = _ :=
        ih h hr
        (by simp only [steps, Tree.text, List.length_cons] at hfuel ⊢; omega)
        (by simp only [Tree.depth] at hdepth; omega)
      refine (parseValue_start (c := openBracket) rfl (by simp only [Tree.depth] at hdepth; omega)
        _).trans ?_
      change found (parseArray _ (openBracket :: (items.text ++ r))) = _
      rw [parseArray_items h, items_skip]
      change (found (run toDouble total .items fuel (depth + 1) (items.text ++ r))).map _ = _
      rw [hinner, Tree.eval, Option.map_map, Option.map_map]
      rfl
  | emptyObject blank =>
      obtain ⟨fuel, rfl⟩ := fuel_pos hfuel
      refine (parseValue_start (c := openBrace) rfl hdepth _).trans ?_
      change found (parseObject _ (openBrace :: ((blank ++ [closeBrace]) ++ r))) = _
      rw [List.append_assoc, List.singleton_append, parseObject,
        parseBetween_empty (h _ List.mem_cons_self) rfl]
      rfl
  | object members ih =>
      obtain ⟨fuel, rfl⟩ := fuel_pos hfuel
      have hinner : found (run toDouble total .members fuel (depth + 1) (members.text ++ r)) = _ :=
        ih h hr
        (by simp only [steps, Tree.text, List.length_cons] at hfuel ⊢; omega)
        (by simp only [Tree.depth] at hdepth; omega)
      refine (parseValue_start (c := openBrace) rfl (by simp only [Tree.depth] at hdepth; omega)
        _).trans ?_
      change found (parseObject _ (openBrace :: (members.text ++ r))) = _
      rw [parseObject_members h, members_skip]
      change (found (run toDouble total .members fuel (depth + 1) (members.text ++ r))).map _ = _
      rw [hinner, Tree.eval, Option.map_map, Option.map_map]
      rfl
  | lastItem front v back ih =>
      obtain ⟨fuel, rfl⟩ := fuel_pos hfuel
      obtain ⟨hfront, hv, hback⟩ := all_lastItem.mp h
      have htext : (Tree.lastItem front v back).text ++ r =
          front ++ (v.text ++ (back ++ closeBracket :: r)) := by simp [Tree.text]
      have hvalue : found (run toDouble total .value fuel depth
          (v.text ++ (back ++ closeBracket :: r))) = _ := ih hv
        (ends_blank hback (ends_cons (c := closeBracket) rfl r))
        (by simp only [steps, Tree.text, List.length_append] at hfuel ⊢; omega) hdepth
      rw [htext]
      change found (items toDouble total (fuel + 1) depth _) = _
      rw [items, found_andThen, parseValue_blank hfront]
      change (found (run toDouble total .value fuel depth _)).bind _ = _
      rw [hvalue, Tree.eval]
      cases v.eval (codeNumber toDouble) codeString with
      | none => rfl
      | some x =>
          rw [Option.map_some, Option.bind_some, skipWhitespace_stop hback rfl]
          rfl
  | item front v back rest ihv ihrest =>
      obtain ⟨fuel, rfl⟩ := fuel_pos hfuel
      obtain ⟨hfront, hv, hback, hrest⟩ := all_item.mp h
      have htext : (Tree.item front v back rest).text ++ r =
          front ++ (v.text ++ (back ++ comma :: (rest.text ++ r))) := by simp [Tree.text]
      simp only [steps, Tree.text, Tree.depth, List.length_append, List.length_cons] at hfuel hdepth
      have hvalue : found (run toDouble total .value fuel depth
          (v.text ++ (back ++ comma :: (rest.text ++ r)))) = _ := ihv hv
        (ends_blank hback (ends_cons (c := comma) rfl (rest.text ++ r)))
        (by simp only [steps]; omega) (by omega)
      have hmore : found (run toDouble total .items fuel depth (rest.text ++ r)) = _ :=
        ihrest hrest hr
        (by simp only [steps]; omega) (by omega)
      rw [htext]
      change found (items toDouble total (fuel + 1) depth _) = _
      rw [items, found_andThen, parseValue_blank hfront]
      change (found (run toDouble total .value fuel depth _)).bind _ = _
      rw [hvalue, Tree.eval]
      cases v.eval (codeNumber toDouble) codeString with
      | none => rfl
      | some x =>
          rw [Option.map_some, Option.bind_some, Option.bind_some, skipWhitespace_stop hback rfl]
          change found (andThen (run toDouble total .items fuel depth (rest.text ++ r)) _) = _
          rw [found_andThen, hmore]
          cases rest.eval (codeNumber toDouble) codeString <;> rfl
  | lastMember front key mid gap v back ih =>
      obtain ⟨fuel, rfl⟩ := fuel_pos hfuel
      obtain ⟨hfront, hkey, hmid, hgap, hv, hback⟩ := all_lastMember.mp h
      have htext : (Tree.lastMember front key mid gap v back).text ++ r =
          front ++ (quoted key ++ (mid ++ colon ::
            (gap ++ (v.text ++ (back ++ closeBrace :: r))))) := by simp [Tree.text]
      simp only [steps, Tree.text, Tree.depth, List.length_append, List.length_cons] at hfuel hdepth
      have hvalue : found (run toDouble total .value fuel depth
          (v.text ++ (back ++ closeBrace :: r))) = _ := ih hv
        (ends_blank hback (ends_cons (c := closeBrace) rfl r)) (by simp only [steps]; omega) hdepth
      rw [htext]
      refine (members_key hfront hkey hmid _).trans ?_
      rw [parseValue_blank hgap]
      change ((codeString key).bind fun name =>
        (found (run toDouble total .value fuel depth _)).bind _) = _
      rw [hvalue, Tree.eval]
      cases codeString key with
      | none => rfl
      | some name =>
          rw [Option.bind_some, Option.bind_some]
          cases v.eval (codeNumber toDouble) codeString with
          | none => rfl
          | some x =>
              rw [Option.map_some, Option.bind_some, skipWhitespace_stop hback rfl]
              rfl
  | member front key mid gap v back rest ihv ihrest =>
      obtain ⟨fuel, rfl⟩ := fuel_pos hfuel
      obtain ⟨hfront, hkey, hmid, hgap, hv, hback, hrest⟩ := all_member.mp h
      have htext : (Tree.member front key mid gap v back rest).text ++ r =
          front ++ (quoted key ++ (mid ++ colon ::
            (gap ++ (v.text ++ (back ++ comma :: (rest.text ++ r)))))) := by simp [Tree.text]
      simp only [steps, Tree.text, Tree.depth, List.length_append, List.length_cons] at hfuel hdepth
      have hvalue : found (run toDouble total .value fuel depth
          (v.text ++ (back ++ comma :: (rest.text ++ r)))) = _ := ihv hv
        (ends_blank hback (ends_cons (c := comma) rfl (rest.text ++ r)))
        (by simp only [steps]; omega) (by omega)
      have hmore : found (run toDouble total .members fuel depth (rest.text ++ r)) = _ :=
        ihrest hrest hr
        (by simp only [steps]; omega) (by omega)
      rw [htext]
      refine (members_key hfront hkey hmid _).trans ?_
      rw [parseValue_blank hgap]
      change ((codeString key).bind fun name =>
        (found (run toDouble total .value fuel depth _)).bind _) = _
      rw [hvalue, Tree.eval]
      cases codeString key with
      | none => rfl
      | some name =>
          rw [Option.bind_some, Option.bind_some]
          cases v.eval (codeNumber toDouble) codeString with
          | none => rfl
          | some x =>
              rw [Option.map_some, Option.bind_some, Option.bind_some,
                skipWhitespace_stop hback rfl]
              change found (andThen (run toDouble total .members fuel depth (rest.text ++ r)) _) = _
              rw [found_andThen, hmore]
              cases rest.eval (codeNumber toDouble) codeString <;> rfl

end Text

end CodeScope.Evidence.RuleJson
