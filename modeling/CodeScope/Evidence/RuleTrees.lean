import CodeScope.Evidence.RuleTexts

/-! # What the parser finds is a tree

Whatever the parser finds, it has read the text of a tree within the limit of the depth, and found
what that tree means (`run_sound`). It leaves less text than it was given, so its steps suffice
(`run_ends`). -/

namespace CodeScope.Evidence.RuleJson

open JsonText JsonSyntax

variable {D : Type} {toDouble : Bool → ℚ → Option D} {total fuel depth : ℕ}

theorem skipWhitespace_split (s : Bytes) :
    ∃ front, (Token.blank front).Shaped ∧ s = front ++ skipWhitespace s :=
  ⟨s.takeWhile isSpace, fun _ hc => List.mem_takeWhile_imp hc,
    List.takeWhile_append_dropWhile.symm⟩

variable {s r : Bytes}

theorem skipWhitespace_solid {c : UInt8} {rest : Bytes} (h : skipWhitespace s = c :: rest) :
    isSpace c = false := by
  have hhead := List.head?_dropWhile_not isSpace s
  have hskip : s.dropWhile isSpace = c :: rest := h
  rw [hskip] at hhead
  exact hhead

theorem skipWhitespace_head {c : UInt8} (h : (skipWhitespace s).head? = some c) :
    ∃ back, (Token.blank back).Shaped ∧ s = back ++ c :: (skipWhitespace s).tail := by
  obtain ⟨back, hback, hsplit⟩ := skipWhitespace_split s
  refine ⟨back, hback, ?_⟩
  cases hskip : skipWhitespace s with
  | nil =>
      rw [hskip] at h
      cases h
  | cons d rest =>
      rw [hskip] at h hsplit
      rw [← Option.some.inj h]
      exact hsplit

/-! ## Soundness -/

/-- What was read for each kind: a value may have blanks before it. -/
def Read (toDouble : Bool → ℚ → Option D) (depth : ℕ) : (k : Kind) → Bytes → Sem D k → Bytes → Prop
  | .value, s, v, r => ∃ (front : Bytes) (t : Tree .value), (Token.blank front).Shaped ∧
      t.All Token.Shaped ∧ s = front ++ (t.text ++ r) ∧ depth + t.depth ≤ kMaxDepth ∧
      t.eval (codeNumber toDouble) codeString = some v
  | .items, s, vs, r => ∃ t : Tree .items, t.All Token.Shaped ∧ s = t.text ++ r ∧
      depth + t.depth ≤ kMaxDepth ∧ t.eval (codeNumber toDouble) codeString = some vs
  | .members, s, ms, r => ∃ t : Tree .members, t.All Token.Shaped ∧ s = t.text ++ r ∧
      depth + t.depth ≤ kMaxDepth ∧ t.eval (codeNumber toDouble) codeString = some ms

/-- Everything that is found with some number of steps was read. -/
def Sound (toDouble : Bool → ℚ → Option D) (total fuel : ℕ) : Prop :=
  ∀ (k : Kind) (depth : ℕ) (s : Bytes) (v : Sem D k) (r : Bytes),
    found (run toDouble total k fuel depth s) = some (v, r) → Read toDouble depth k s v r

/-- An array or an object that was found: empty, or what its loop has found. -/
theorem parseBetween_found {α : Type} {close c : UInt8} {wrap : List α → Val D}
    {loop : Bytes → Result (List α)} {rest : Bytes} {v : Val D}
    (h : found (parseBetween close wrap loop (c :: rest)) = some (v, r)) :
    (∃ blank, (Token.blank blank).Shaped ∧ rest = blank ++ close :: r ∧ v = wrap []) ∨
      ∃ xs, found (loop (skipWhitespace rest)) = some (xs, r) ∧ v = wrap xs := by
  by_cases hclose : (skipWhitespace rest).head? = some close
  · obtain ⟨blank, hblank, hrest⟩ := skipWhitespace_head hclose
    unfold parseBetween at h
    rw [List.tail_cons] at h
    dsimp only at h
    rw [if_pos hclose] at h
    obtain ⟨rfl, rfl⟩ := Prod.mk.inj (Option.some.inj h)
    exact Or.inl ⟨blank, hblank, hrest, rfl⟩
  · rw [parseBetween_loop hclose] at h
    obtain ⟨p, hp, hpair⟩ := Option.map_eq_some_iff.mp h
    obtain ⟨rfl, rfl⟩ := Prod.mk.inj hpair
    exact Or.inr ⟨p.1, hp, rfl⟩

theorem toOption_eq_some {α : Type} {e : Except Bytes α} {a : α} (h : e.toOption = some a) :
    e = .ok a := by
  cases e with
  | error e => cases h
  | ok b => rw [← Option.some.inj h]

/-- One step: a value. -/
theorem parseValue_sound (ih : Sound toDouble total fuel) {v : Val D}
    (h : found (parseValue toDouble total (fuel + 1) depth s) = some (v, r)) :
    Read toDouble depth .value s v r := by
  have hdepth : depth + 1 ≤ kMaxDepth := by
    by_contra hlimit
    rw [parseValue, if_pos (by omega)] at h
    cases h
  obtain ⟨front, hfront, hsplit⟩ := skipWhitespace_split s
  rw [← parseValue_skip] at h
  cases hskip : skipWhitespace s with
  | nil =>
      rw [hskip, parseValue, if_neg (by omega)] at h
      cases h
  | cons c rest =>
      have hc := skipWhitespace_solid hskip
      rw [hskip] at h hsplit
      rw [parseValue_start hc hdepth] at h
      cases hstart : startOf c with
      | none =>
          rw [hstart] at h
          cases h
      | some k =>
          have hspec := startOf_spec hstart
          rw [hstart] at h
          cases k with
          | null =>
              obtain ⟨htext, rfl⟩ := parseNull_sound (toOption_eq_some h)
              exact ⟨front, .null, hfront, by simp [Tree.All, Tree.tokens],
                by rw [hsplit, htext]; rfl, hdepth, rfl⟩
          | bool =>
              obtain ⟨b, htext, rfl⟩ := parseBool_sound (toOption_eq_some h)
              exact ⟨front, .bool b, hfront, by simp [Tree.All, Tree.tokens],
                by rw [hsplit, htext]; rfl, hdepth, rfl⟩
          | number =>
              obtain ⟨token, x, htoken, htext, hx, rfl⟩ :=
                parseNumber_sound hspec (toOption_eq_some h)
              exact ⟨front, .number token, hfront, by simpa [Tree.All, Tree.tokens] using htoken,
                by rw [hsplit, htext]; rfl, hdepth, by rw [Tree.eval, hx]; rfl⟩
          | string =>
              obtain rfl : c = quote := hspec
              obtain ⟨⟨w, t⟩, hw, hpair⟩ := Option.map_eq_some_iff.mp h
              obtain ⟨rfl, rfl⟩ := Prod.mk.inj hpair
              obtain ⟨pieces, hpieces, htext, hread⟩ := parseString_sound (toOption_eq_some hw)
              exact ⟨front, .string pieces, hfront, by simpa [Tree.All, Tree.tokens] using hpieces,
                by rw [hsplit, htext]; rfl, hdepth, by rw [Tree.eval, hread]; rfl⟩
          | array =>
              obtain rfl : c = openBracket := hspec
              rcases parseBetween_found h with ⟨blank, hblank, rfl, rfl⟩ | ⟨vs, hvs, rfl⟩
              · exact ⟨front, .emptyArray blank, hfront,
                  by simpa [Tree.All, Tree.tokens] using hblank, by simp [hsplit, Tree.text],
                  hdepth, rfl⟩
              · rw [items_skip] at hvs
                obtain ⟨t, ht, rfl, hlimit, heval⟩ := ih .items (depth + 1) rest vs r hvs
                exact ⟨front, .array t, hfront, ht, hsplit, by simp only [Tree.depth]; omega,
                  by rw [Tree.eval, heval]; rfl⟩
          | object =>
              obtain rfl : c = openBrace := hspec
              rcases parseBetween_found h with ⟨blank, hblank, rfl, rfl⟩ | ⟨ms, hms, rfl⟩
              · exact ⟨front, .emptyObject blank, hfront,
                  by simpa [Tree.All, Tree.tokens] using hblank, by simp [hsplit, Tree.text],
                  hdepth, rfl⟩
              · rw [members_skip] at hms
                obtain ⟨t, ht, rfl, hlimit, heval⟩ := ih .members (depth + 1) rest ms r hms
                exact ⟨front, .object t, hfront, ht, hsplit, by simp only [Tree.depth]; omega,
                  by rw [Tree.eval, heval]; rfl⟩

/-- One step: the items of an array. -/
theorem items_sound (ih : Sound toDouble total fuel) {vs : List (Val D)}
    (h : found (items toDouble total (fuel + 1) depth s) = some (vs, r)) :
    Read toDouble depth .items s vs r := by
  rw [items, found_andThen] at h
  obtain ⟨⟨v, s'⟩, hv, hmore⟩ := Option.bind_eq_some_iff.mp h
  obtain ⟨front, t, hfront, ht, rfl, hlimit, heval⟩ := ih .value depth s v s' hv
  dsimp only at hmore
  split_ifs at hmore with hcomma hclose
  · obtain ⟨back, hback, hrest⟩ := skipWhitespace_head hcomma
    rw [found_andThen] at hmore
    obtain ⟨⟨ws, s''⟩, hws, hpair⟩ := Option.bind_eq_some_iff.mp hmore
    obtain ⟨rfl, rfl⟩ := Prod.mk.inj (Option.some.inj hpair)
    obtain ⟨ts, hts, htail, hlimit', heval'⟩ := ih .items depth _ ws s'' hws
    rw [htail] at hrest
    refine ⟨.item front t back ts, all_item.mpr ⟨hfront, ht, hback, hts⟩, ?_, ?_, ?_⟩
    · rw [hrest]
      simp [Tree.text]
    · simp only [Tree.depth]
      omega
    · rw [Tree.eval, heval, heval']
      rfl
  · obtain ⟨back, hback, hrest⟩ := skipWhitespace_head hclose
    obtain ⟨rfl, rfl⟩ := Prod.mk.inj (Option.some.inj hmore)
    refine ⟨.lastItem front t back, all_lastItem.mpr ⟨hfront, ht, hback⟩, ?_, hlimit, ?_⟩
    · conv_lhs => rw [hrest]
      simp [Tree.text]
    · rw [Tree.eval, heval]
      rfl
  · cases hmore

/-- One step: the members of an object. -/
theorem members_sound (ih : Sound toDouble total fuel) {ms : List (Bytes × Val D)}
    (h : found (members toDouble total (fuel + 1) depth s) = some (ms, r)) :
    Read toDouble depth .members s ms r := by
  rw [members] at h
  dsimp only at h
  split_ifs at h with hquote
  · cases h
  obtain ⟨front, hfront, hsplit⟩ := skipWhitespace_head (not_not.mp hquote)
  rw [found_andThen] at h
  obtain ⟨⟨name, s₁⟩, hname, h⟩ := Option.bind_eq_some_iff.mp h
  have hkey : ∃ key, (Token.string key).Shaped ∧
      quote :: (skipWhitespace s).tail = quoted key ++ s₁ ∧ codeString key = some name := by
    obtain ⟨t, ht⟩ := List.head?_eq_some_iff.mp (not_not.mp hquote)
    rw [ht] at hname ⊢
    exact parseString_sound (toOption_eq_some hname)
  obtain ⟨key, hkey, hquoted, hread⟩ := hkey
  dsimp only at h
  split_ifs at h with hcolon
  · cases h
  obtain ⟨mid, hmid, hmore⟩ := skipWhitespace_head (not_not.mp hcolon)
  rw [found_andThen] at h
  obtain ⟨⟨v, s₂⟩, hv, h⟩ := Option.bind_eq_some_iff.mp h
  obtain ⟨gap, t, hgap, ht, hvalue, hlimit, heval⟩ := ih .value depth _ v s₂ hv
  have htext : s = front ++ (quoted key ++ (mid ++ colon :: (gap ++ (t.text ++ s₂)))) := by
    rw [hsplit, hquoted, ← hvalue, ← hmore]
  dsimp only at h
  split_ifs at h with hcomma hclose
  · obtain ⟨back, hback, hrest⟩ := skipWhitespace_head hcomma
    rw [found_andThen] at h
    obtain ⟨⟨ns, s₃⟩, hns, hpair⟩ := Option.bind_eq_some_iff.mp h
    obtain ⟨rfl, rfl⟩ := Prod.mk.inj (Option.some.inj hpair)
    obtain ⟨ts, hts, htail, hlimit', heval'⟩ := ih .members depth _ ns s₃ hns
    rw [htail] at hrest
    refine ⟨.member front key mid gap t back ts,
      all_member.mpr ⟨hfront, hkey, hmid, hgap, ht, hback, hts⟩, ?_, ?_, ?_⟩
    · rw [htext, hrest]
      simp [Tree.text]
    · simp only [Tree.depth]
      omega
    · rw [Tree.eval, hread, heval, heval']
      rfl
  · obtain ⟨back, hback, hrest⟩ := skipWhitespace_head hclose
    obtain ⟨rfl, rfl⟩ := Prod.mk.inj (Option.some.inj h)
    refine ⟨.lastMember front key mid gap t back,
      all_lastMember.mpr ⟨hfront, hkey, hmid, hgap, ht, hback⟩, ?_, hlimit, ?_⟩
    · rw [htext]
      conv_lhs => rw [hrest]
      simp [Tree.text]
    · rw [Tree.eval, hread, heval]
      rfl
  · cases h

/-- **What the parser finds was read**: the text of a tree within the limit, and its meaning. -/
theorem run_sound (fuel : ℕ) : Sound toDouble total fuel := by
  -- on the steps, for all three functions at once
  induction fuel with
  | zero =>
      intro k depth s v r h
      cases k <;> cases h
  | succ fuel ih =>
      intro k depth s v r h
      cases k with
      | value => exact parseValue_sound ih h
      | items => exact items_sound ih h
      | members => exact members_sound ih h

/-! ## The steps suffice -/

theorem parseValue_shorter {v : Val D}
    (h : found (parseValue toDouble total fuel depth s) = some (v, r)) : r.length < s.length := by
  obtain ⟨front, t, -, ht, rfl, -, -⟩ := run_sound fuel .value depth s v r h
  have hpos := length_text_pos t ht
  simp only [List.length_append]
  omega

theorem length_skipWhitespace (s : Bytes) : (skipWhitespace s).length ≤ s.length :=
  (List.dropWhile_sublist _).length_le

/-- A text of a kind needs no more than its number of steps. -/
def Suffices (toDouble : Bool → ℚ → Option D) (total fuel : ℕ) : Prop :=
  ∀ (k : Kind) (depth : ℕ) (s : Bytes), steps k s.length ≤ fuel →
    run toDouble total k fuel depth s ≠ none

theorem parseBetween_ends {α : Type} {close c : UInt8} {wrap : List α → Val D} {rest : Bytes}
    {loop : Bytes → Result (List α)} (h : ∀ s : Bytes, s.length ≤ rest.length → loop s ≠ none) :
    parseBetween close wrap loop (c :: rest) ≠ none := by
  unfold parseBetween
  dsimp only
  split_ifs
  · exact Option.some_ne_none _
  · exact andThen_ne_none (h _ (length_skipWhitespace rest)) fun _ _ _ => Option.some_ne_none _

theorem parseValue_ends (ih : Suffices toDouble total fuel) (h : steps .value s.length ≤ fuel + 1) :
    parseValue toDouble total (fuel + 1) depth s ≠ none := by
  simp only [steps] at h
  have hlength := length_skipWhitespace s
  rw [parseValue]
  split_ifs
  · exact Option.some_ne_none _
  cases hskip : skipWhitespace s with
  | nil => exact Option.some_ne_none _
  | cons c rest =>
      rw [hskip, List.length_cons] at hlength
      dsimp only
      split_ifs
      · refine parseBetween_ends fun t ht => ih .members (depth + 1) t ?_
        simp only [steps]
        omega
      · refine parseBetween_ends fun t ht => ih .items (depth + 1) t ?_
        simp only [steps]
        omega
      all_goals exact Option.some_ne_none _

theorem items_ends (ih : Suffices toDouble total fuel) (h : steps .items s.length ≤ fuel + 1) :
    items toDouble total (fuel + 1) depth s ≠ none := by
  simp only [steps] at h
  rw [items]
  refine andThen_ne_none (ih .value depth s (by simp only [steps]; omega)) ?_
  intro v s' hv
  have hshort := parseValue_shorter hv
  have hskip := length_skipWhitespace s'
  dsimp only
  split_ifs
  · refine andThen_ne_none (ih .items depth _ ?_) fun _ _ _ => Option.some_ne_none _
    simp only [steps, List.length_tail]
    omega
  · exact Option.some_ne_none _
  · exact Option.some_ne_none _

theorem parseString_shorter {w : Bytes} (hs : s.head? = some quote)
    (h : parseString total s = .ok (w, r)) : r.length < s.length := by
  obtain ⟨t, rfl⟩ := List.head?_eq_some_iff.mp hs
  obtain ⟨key, -, htext, -⟩ := parseString_sound h
  rw [htext]
  simp only [quoted, List.length_append, List.length_cons]
  omega

theorem members_ends (ih : Suffices toDouble total fuel) (h : steps .members s.length ≤ fuel + 1) :
    members toDouble total (fuel + 1) depth s ≠ none := by
  simp only [steps] at h
  have hlength := length_skipWhitespace s
  rw [members]
  dsimp only
  split_ifs with hquote
  · exact Option.some_ne_none _
  refine andThen_ne_none (Option.some_ne_none _) ?_
  intro name s₁ hname
  have hkey := parseString_shorter (not_not.mp hquote) (toOption_eq_some hname)
  have hmid := length_skipWhitespace s₁
  split_ifs
  · exact Option.some_ne_none _
  refine andThen_ne_none (ih .value depth _ ?_) ?_
  · simp only [steps, List.length_tail]
    omega
  intro v s₂ hv
  have hvalue := parseValue_shorter hv
  have hback := length_skipWhitespace s₂
  rw [List.length_tail] at hvalue
  split_ifs
  · refine andThen_ne_none (ih .members depth _ ?_) fun _ _ _ => Option.some_ne_none _
    simp only [steps, List.length_tail]
    omega
  · exact Option.some_ne_none _
  · exact Option.some_ne_none _

/-- **The parser ends** within its steps. -/
theorem run_ends (fuel : ℕ) : Suffices toDouble total fuel := by
  induction fuel with
  | zero =>
      intro k depth s h
      cases k <;> simp only [steps] at h <;> omega
  | succ fuel ih =>
      intro k depth s h
      cases k with
      | value => exact parseValue_ends ih h
      | items => exact items_ends ih h
      | members => exact members_ends ih h

end CodeScope.Evidence.RuleJson
