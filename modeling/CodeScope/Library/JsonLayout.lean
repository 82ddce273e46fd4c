import CodeScope.Library.JsonSyntax

/-! # A text has one layout

The tokens of a text can be told apart from the front: blanks end before the first byte that is none,
a number ends before the first byte that no number has, a string ends at the first quote that no
backslash escapes, and the first byte of a value says what it is. So a text is the text of one tree
at most, and it makes sense to speak of the value that it denotes. -/

namespace JsonSyntax

open JsonText

/-! ## Blanks -/

variable {s r r' : Bytes} {c : UInt8} {pieces : List Piece}

theorem skipSpace_blank (h : (Token.blank s).Shaped) (r : Bytes) :
    skipSpace (s ++ r) = skipSpace r := by
  rw [skipSpace, skipSpace, List.dropWhile_append_of_pos h]

/-- No blank comes first. -/
def Solid (r : Bytes) : Prop := ∀ c, r.head? = some c → isSpace c = false

theorem solid_cons (h : isSpace c = false) (s : Bytes) : Solid (c :: s) := by
  intro d hd
  rw [← Option.some.inj hd]
  exact h

theorem Solid.skipSpace_eq (h : Solid r) : skipSpace r = r := by
  cases r with
  | nil => rfl
  | cons c r => exact skipSpace_cons (h c rfl)

theorem blank_unique {s' : Bytes} (h : (Token.blank s).Shaped) (h' : (Token.blank s').Shaped)
    (hr : Solid r) (hr' : Solid r') (heq : s ++ r = s' ++ r') : s = s' ∧ r = r' := by
  have hrest : r = r' := by
    have hskip := congrArg skipSpace heq
    rwa [skipSpace_blank h, skipSpace_blank h', hr.skipSpace_eq, hr'.skipSpace_eq] at hskip
  subst hrest
  exact ⟨List.append_cancel_right heq, rfl⟩

/-! ## Numbers -/

/-- No byte of a number comes first. -/
def Ends (r : Bytes) : Prop := ∀ c, r.head? = some c → isNumberByte c = false

theorem ends_nil : Ends [] := fun c hc => by cases hc

theorem ends_cons (h : isNumberByte c = false) (s : Bytes) : Ends (c :: s) := by
  intro d hd
  rw [← Option.some.inj hd]
  exact h

theorem isNumberByte_of_isSpace (h : isSpace c = true) : isNumberByte c = false := by
  simp only [isSpace, Bool.or_eq_true, decide_eq_true_iff] at h
  rcases h with ((rfl | rfl) | rfl) | rfl <;> rfl

theorem ends_blank (h : (Token.blank s).Shaped) (hr : Ends r) : Ends (s ++ r) := by
  cases s with
  | nil => exact hr
  | cons c s => exact ends_cons (isNumberByte_of_isSpace (h c List.mem_cons_self)) _

theorem number_split {token : Bytes} (h : ∀ c ∈ token, isNumberByte c = true) (hr : Ends r) :
    (token ++ r).takeWhile isNumberByte = token ∧ (token ++ r).dropWhile isNumberByte = r := by
  rw [List.takeWhile_append_of_pos h, List.dropWhile_append_of_pos h]
  cases r with
  | nil => exact ⟨List.append_nil token, rfl⟩
  | cons c r =>
      have hc : ¬ isNumberByte c = true := by simp [hr c rfl]
      rw [List.takeWhile_cons_of_neg hc, List.dropWhile_cons_of_neg hc, List.append_nil]
      exact ⟨rfl, rfl⟩

theorem number_unique {token token' : Bytes} (h : ∀ c ∈ token, isNumberByte c = true)
    (h' : ∀ c ∈ token', isNumberByte c = true) (hr : Ends r) (hr' : Ends r')
    (heq : token ++ r = token' ++ r') : token = token' ∧ r = r' := by
  have hsplit := number_split h hr
  rw [heq, (number_split h' hr').1, (number_split h' hr').2] at hsplit
  exact ⟨hsplit.1.symm, hsplit.2.symm⟩

/-! ## Strings -/

theorem inside_cons (p : Piece) (pieces : List Piece) :
    inside (p :: pieces) = p.text ++ inside pieces := List.flatMap_cons

/-- A piece is known by its text, whatever comes behind it. -/
theorem piece_unique {p p' : Piece} (h : p.Shaped) (h' : p'.Shaped)
    (heq : p.text ++ r = p'.text ++ r') : p = p' ∧ r = r' := by
  have hu : ∀ c : UInt8, (shortEscape c).isSome → c ≠ letterU := by
    rintro c hc rfl
    exact absurd hc (by decide)
  cases p with
  | raw c =>
      cases p' with
      | raw c' =>
          obtain ⟨rfl, rfl⟩ := List.cons.inj heq
          exact ⟨rfl, rfl⟩
      | short c' | unicode => exact absurd (List.cons.inj heq).1 h.2
  | short c =>
      cases p' with
      | raw c' => exact absurd (List.cons.inj heq).1.symm h'.2
      | short c' =>
          obtain ⟨rfl, rfl⟩ := List.cons.inj (List.cons.inj heq).2
          exact ⟨rfl, rfl⟩
      | unicode => exact absurd (List.cons.inj (List.cons.inj heq).2).1 (hu c h)
  | unicode a b c d =>
      cases p' with
      | raw c' => exact absurd (List.cons.inj heq).1.symm h'.2
      | short c' => exact absurd (List.cons.inj (List.cons.inj heq).2).1.symm (hu c' h')
      | unicode a' b' c' d' =>
          simp only [Piece.text, List.cons_append, List.nil_append, List.cons.injEq,
            true_and] at heq
          obtain ⟨rfl, rfl, rfl, rfl, rfl⟩ := heq
          exact ⟨rfl, rfl⟩

theorem piece_ne_quote {p : Piece} (h : p.Shaped) : p.text ++ r ≠ quote :: s := by
  intro heq
  cases p with
  | raw c => exact h.1 (List.cons.inj heq).1
  | short c | unicode a b c d => exact absurd (List.cons.inj heq).1 (by decide)

theorem inside_unique {pieces' : List Piece} (h : ∀ p ∈ pieces, p.Shaped)
    (h' : ∀ p ∈ pieces', p.Shaped)
    (heq : inside pieces ++ quote :: r = inside pieces' ++ quote :: r') :
    pieces = pieces' ∧ r = r' := by
  induction pieces generalizing pieces' with
  | nil =>
      cases pieces' with
      | nil => exact ⟨rfl, (List.cons.inj heq).2⟩
      | cons p' ps' =>
          rw [inside_cons, List.append_assoc] at heq
          exact absurd heq.symm (piece_ne_quote (h' p' List.mem_cons_self))
  | cons p ps ih =>
      rw [inside_cons, List.append_assoc] at heq
      cases pieces' with
      | nil => exact absurd heq (piece_ne_quote (h p List.mem_cons_self))
      | cons p' ps' =>
          rw [inside_cons, List.append_assoc] at heq
          obtain ⟨rfl, hrest⟩ :=
            piece_unique (h p List.mem_cons_self) (h' p' List.mem_cons_self) heq
          obtain ⟨rfl, rfl⟩ := ih (fun q hq => h q (List.mem_cons_of_mem p hq))
            (fun q hq => h' q (List.mem_cons_of_mem p hq)) hrest
          exact ⟨rfl, rfl⟩

theorem quoted_append (pieces : List Piece) (r : Bytes) :
    quoted pieces ++ r = quote :: (inside pieces ++ quote :: r) := by
  simp [quoted]

theorem quoted_unique {pieces' : List Piece} (h : (Token.string pieces).Shaped)
    (h' : (Token.string pieces').Shaped) (heq : quoted pieces ++ r = quoted pieces' ++ r') :
    pieces = pieces' ∧ r = r' := by
  rw [quoted_append, quoted_append] at heq
  exact inside_unique h h' (List.cons.inj heq).2

/-! ## The first byte of a value -/

/-- What begins with a byte: a name, a number, a string, an array or an object. -/
inductive Start where
  | null
  | bool
  | number
  | string
  | array
  | object
deriving DecidableEq

def startOf (c : UInt8) : Option Start :=
  if c = openBrace then some .object
  else if c = openBracket then some .array
  else if c = quote then some .string
  else if c = 0x74 || c = 0x66 then some .bool
  else if c = 0x6E then some .null
  else if c = minus || isDigit c then some .number
  else none

def Tree.start : Tree .value → Start
  | .null => .null
  | .bool _ => .bool
  | .number _ => .number
  | .string _ => .string
  | .emptyArray _ => .array
  | .array _ => .array
  | .emptyObject _ => .object
  | .object _ => .object

theorem startOf_digit (h : c = minus ∨ isDigit c = true) : startOf c = some .number := by
  have hne : c ≠ openBrace ∧ c ≠ openBracket ∧ c ≠ quote ∧ c ≠ 0x74 ∧ c ≠ 0x66 ∧ c ≠ 0x6E := by
    refine ⟨?_, ?_, ?_, ?_, ?_, ?_⟩ <;> rintro rfl <;> exact absurd h (by decide)
  obtain ⟨h₁, h₂, h₃, h₄, h₅, h₆⟩ := hne
  simp [startOf, h₁, h₂, h₃, h₄, h₅, h₆, h]

theorem Tree.text_start (v : Tree .value) (h : v.All Token.Shaped) :
    ∃ c s, v.text = c :: s ∧ startOf c = some v.start := by
  cases v with
  | null => exact ⟨0x6E, _, rfl, rfl⟩
  | bool b =>
      cases b with
      | false => exact ⟨0x66, _, rfl, rfl⟩
      | true => exact ⟨0x74, _, rfl, rfl⟩
  | number token =>
      obtain ⟨⟨c, s, rfl, hc⟩, -⟩ := h _ List.mem_cons_self
      exact ⟨c, s, rfl, startOf_digit hc⟩
  | string pieces => exact ⟨quote, _, rfl, rfl⟩
  | emptyArray blank | array items => exact ⟨openBracket, _, rfl, rfl⟩
  | emptyObject blank | object members => exact ⟨openBrace, _, rfl, rfl⟩

theorem startOf_ne {k : Start} (h : startOf c = some k) :
    isSpace c = false ∧ c ≠ closeBracket ∧ c ≠ closeBrace := by
  refine ⟨?_, ?_, ?_⟩
  · by_contra hc
    have hspace : isSpace c = true := by simpa using hc
    simp only [isSpace, Bool.or_eq_true, decide_eq_true_iff] at hspace
    rcases hspace with ((rfl | rfl) | rfl) | rfl <;>
      exact absurd h (by simp [startOf, openBrace, openBracket, quote, minus, isDigit])
  · rintro rfl
    exact absurd h (by simp [startOf, closeBracket, openBrace, openBracket, quote, minus, isDigit])
  · rintro rfl
    exact absurd h (by simp [startOf, closeBrace, openBrace, openBracket, quote, minus, isDigit])

theorem Tree.solid_text (v : Tree .value) (h : v.All Token.Shaped) (r : Bytes) :
    Solid (v.text ++ r) := by
  obtain ⟨c, s, hcons, hstart⟩ := v.text_start h
  rw [hcons]
  exact solid_cons (startOf_ne hstart).1 _

/-- The first byte of each kind of value. -/
theorem startOf_spec {k : Start} (h : startOf c = some k) :
    match k with
    | .null => c = 0x6E
    | .bool => c = 0x74 ∨ c = 0x66
    | .number => c = minus ∨ isDigit c = true
    | .string => c = quote
    | .array => c = openBracket
    | .object => c = openBrace := by
  unfold startOf at h
  split_ifs at h with h₁ h₂ h₃ h₄ h₅ h₆ <;> obtain rfl := Option.some.inj h
  · exact h₁
  · exact h₂
  · exact h₃
  · simpa using h₄
  · exact h₅
  · simpa using h₆

/-! ## One tree -/

theorem items_front (items : Tree .items) (h : items.All Token.Shaped) :
    ∃ front c s k, items.text = front ++ c :: s ∧ (Token.blank front).Shaped ∧
      startOf c = some k := by
  cases items with
  | lastItem front v back =>
      obtain ⟨hfront, hv, -⟩ := all_lastItem.mp h
      obtain ⟨c, s, hcons, hstart⟩ := v.text_start hv
      exact ⟨front, c, _, _, by rw [Tree.text, hcons]; rfl, hfront, hstart⟩
  | item front v back rest =>
      obtain ⟨hfront, hv, -⟩ := all_item.mp h
      obtain ⟨c, s, hcons, hstart⟩ := v.text_start hv
      exact ⟨front, c, _, _, by rw [Tree.text, hcons]; rfl, hfront, hstart⟩

theorem members_front (members : Tree .members) (h : members.All Token.Shaped) :
    ∃ front s, members.text = front ++ quote :: s ∧ (Token.blank front).Shaped := by
  cases members with
  | lastMember front key mid gap v back => exact ⟨front, _, rfl, (all_lastMember.mp h).1⟩
  | member front key mid gap v back rest => exact ⟨front, _, rfl, (all_member.mp h).1⟩

theorem blank_close_ne {blank front : Bytes} {close : UInt8} (hblank : (Token.blank blank).Shaped)
    (hfront : (Token.blank front).Shaped) (hclose : isSpace close = false) (hc : isSpace c = false)
    (hne : close ≠ c) : blank ++ close :: r ≠ front ++ c :: s := by
  intro heq
  have hsame := (blank_unique hblank hfront (solid_cons hclose r) (solid_cons hc s) heq).2
  exact hne (List.cons.inj hsame).1

/-- The tree is known by its text, whatever comes behind it. -/
def Unique {k : Kind} (t : Tree k) : Prop :=
  ∀ t' : Tree k, t'.All Token.Shaped → ∀ r r' : Bytes, Ends r → Ends r' →
    t.text ++ r = t'.text ++ r' → t = t' ∧ r = r'

/-- A value between blanks, before a byte of punctuation. -/
theorem Unique.between {v v' : Tree .value} (hv : Unique v) (hshaped : v.All Token.Shaped)
    (hshaped' : v'.All Token.Shaped) {front front' back back' : Bytes} {stop stop' : UInt8}
    (hfront : (Token.blank front).Shaped) (hfront' : (Token.blank front').Shaped)
    (hback : (Token.blank back).Shaped) (hback' : (Token.blank back').Shaped)
    (hstop : isSpace stop = false ∧ isNumberByte stop = false)
    (hstop' : isSpace stop' = false ∧ isNumberByte stop' = false)
    (heq : front ++ (v.text ++ (back ++ stop :: r)) = front' ++ (v'.text ++ (back' ++ stop' :: r'))) :
    front = front' ∧ v = v' ∧ back = back' ∧ stop = stop' ∧ r = r' := by
  obtain ⟨rfl, hvalue⟩ :=
    blank_unique hfront hfront' (v.solid_text hshaped _) (v'.solid_text hshaped' _) heq
  obtain ⟨rfl, hrest⟩ := hv v' hshaped' _ _ (ends_blank hback (ends_cons hstop.2 r))
    (ends_blank hback' (ends_cons hstop'.2 r')) hvalue
  obtain ⟨rfl, hpunct⟩ :=
    blank_unique hback hback' (solid_cons hstop.1 r) (solid_cons hstop'.1 r') hrest
  obtain ⟨rfl, rfl⟩ := List.cons.inj hpunct
  exact ⟨rfl, rfl, rfl, rfl, rfl⟩

theorem key_unique {front front' mid mid' : Bytes} {key key' : List Piece}
    (hfront : (Token.blank front).Shaped) (hfront' : (Token.blank front').Shaped)
    (hkey : (Token.string key).Shaped) (hkey' : (Token.string key').Shaped)
    (hmid : (Token.blank mid).Shaped) (hmid' : (Token.blank mid').Shaped)
    (heq : front ++ (quoted key ++ (mid ++ colon :: r)) = front' ++ (quoted key' ++ (mid' ++ colon :: r'))) :
    front = front' ∧ key = key' ∧ mid = mid' ∧ r = r' := by
  have hsolid : ∀ (ps : List Piece) (s : Bytes), Solid (quoted ps ++ s) :=
    fun ps s => solid_cons rfl _
  obtain ⟨rfl, hquoted⟩ := blank_unique hfront hfront' (hsolid key _) (hsolid key' _) heq
  obtain ⟨rfl, hrest⟩ := quoted_unique hkey hkey' hquoted
  obtain ⟨rfl, hpunct⟩ := blank_unique hmid hmid' (solid_cons rfl r) (solid_cons rfl r') hrest
  exact ⟨rfl, rfl, rfl, (List.cons.inj hpunct).2⟩

theorem start_unique {v v' : Tree .value} {s' : Bytes} (hv : v.All Token.Shaped)
    (hv' : v'.All Token.Shaped) (heq : v.text ++ s = v'.text ++ s') : v.start = v'.start := by
  obtain ⟨c, t, hcons, hstart⟩ := v.text_start hv
  obtain ⟨c', t', hcons', hstart'⟩ := v'.text_start hv'
  rw [hcons, hcons'] at heq
  rw [(List.cons.inj heq).1, hstart'] at hstart
  exact (Option.some.inj hstart).symm

/-- **A text is the text of one tree.** -/
theorem text_unique {k : Kind} (t : Tree k) (h : t.All Token.Shaped) : Unique t := by
  -- on the tree; another tree with the same text begins with the same byte
  have hcomma : isSpace comma = false ∧ isNumberByte comma = false := by decide
  have hbracket : isSpace closeBracket = false ∧ isNumberByte closeBracket = false := by decide
  have hbrace : isSpace closeBrace = false ∧ isNumberByte closeBrace = false := by decide
  induction t with
  | null =>
      intro t' h' r r' hr hr' heq
      cases t' with
      | null => exact ⟨rfl, List.append_cancel_left heq⟩
      | _ => exact absurd (start_unique h h' heq) (by simp [Tree.start])
  | bool b =>
      intro t' h' r r' hr hr' heq
      cases t' with
      | bool b' =>
          have hb : b = b' := by
            cases b <;> cases b' <;> first | rfl | exact absurd (List.cons.inj heq).1 (by decide)
          subst hb
          exact ⟨rfl, List.append_cancel_left heq⟩
      | _ => exact absurd (start_unique h h' heq) (by simp [Tree.start])
  | number token =>
      intro t' h' r r' hr hr' heq
      cases t' with
      | number token' =>
          obtain ⟨rfl, rfl⟩ := number_unique (h _ List.mem_cons_self).2
            (h' _ List.mem_cons_self).2 hr hr' heq
          exact ⟨rfl, rfl⟩
      | _ => exact absurd (start_unique h h' heq) (by simp [Tree.start])
  | string pieces =>
      intro t' h' r r' hr hr' heq
      cases t' with
      | string pieces' =>
          obtain ⟨rfl, rfl⟩ :=
            quoted_unique (h _ List.mem_cons_self) (h' _ List.mem_cons_self) heq
          exact ⟨rfl, rfl⟩
      | _ => exact absurd (start_unique h h' heq) (by simp [Tree.start])
  | emptyArray blank =>
      intro t' h' r r' hr hr' heq
      have hblank : (Token.blank blank).Shaped := h _ List.mem_cons_self
      cases t' with
      | emptyArray blank' =>
          simp only [Tree.text, List.cons_append, List.append_assoc, List.cons.injEq, true_and,
            List.nil_append] at heq
          obtain ⟨rfl, hrest⟩ := blank_unique hblank (h' _ List.mem_cons_self)
            (solid_cons hbracket.1 r) (solid_cons hbracket.1 r') heq
          exact ⟨rfl, (List.cons.inj hrest).2⟩
      | array items' =>
          obtain ⟨front, c, s, k, hitems, hfront, hstart⟩ := items_front items' h'
          have hc := startOf_ne hstart
          simp only [Tree.text, List.cons_append, List.append_assoc, List.cons.injEq, true_and,
            List.nil_append, hitems] at heq
          exact absurd heq (blank_close_ne hblank hfront hbracket.1 hc.1 hc.2.1.symm)
      | _ => exact absurd (start_unique h h' heq) (by simp [Tree.start])
  | array items ih =>
      intro t' h' r r' hr hr' heq
      cases t' with
      | emptyArray blank' =>
          obtain ⟨front, c, s, k, hitems, hfront, hstart⟩ := items_front items h
          have hc := startOf_ne hstart
          simp only [Tree.text, List.cons_append, List.append_assoc, List.cons.injEq, true_and,
            List.nil_append, hitems] at heq
          exact absurd heq.symm
            (blank_close_ne (h' _ List.mem_cons_self) hfront hbracket.1 hc.1 hc.2.1.symm)
      | array items' =>
          obtain ⟨rfl, rfl⟩ := ih h items' h' r r' hr hr' (List.cons.inj heq).2
          exact ⟨rfl, rfl⟩
      | _ => exact absurd (start_unique h h' heq) (by simp [Tree.start])
  | emptyObject blank =>
      intro t' h' r r' hr hr' heq
      have hblank : (Token.blank blank).Shaped := h _ List.mem_cons_self
      cases t' with
      | emptyObject blank' =>
          simp only [Tree.text, List.cons_append, List.append_assoc, List.cons.injEq, true_and,
            List.nil_append] at heq
          obtain ⟨rfl, hrest⟩ := blank_unique hblank (h' _ List.mem_cons_self)
            (solid_cons hbrace.1 r) (solid_cons hbrace.1 r') heq
          exact ⟨rfl, (List.cons.inj hrest).2⟩
      | object members' =>
          obtain ⟨front, s, hmembers, hfront⟩ := members_front members' h'
          simp only [Tree.text, List.cons_append, List.append_assoc, List.cons.injEq, true_and,
            List.nil_append, hmembers] at heq
          exact absurd heq (blank_close_ne hblank hfront hbrace.1 rfl (by decide))
      | _ => exact absurd (start_unique h h' heq) (by simp [Tree.start])
  | object members ih =>
      intro t' h' r r' hr hr' heq
      cases t' with
      | emptyObject blank' =>
          obtain ⟨front, s, hmembers, hfront⟩ := members_front members h
          simp only [Tree.text, List.cons_append, List.append_assoc, List.cons.injEq, true_and,
            List.nil_append, hmembers] at heq
          exact absurd heq.symm
            (blank_close_ne (h' _ List.mem_cons_self) hfront hbrace.1 rfl (by decide))
      | object members' =>
          obtain ⟨rfl, rfl⟩ := ih h members' h' r r' hr hr' (List.cons.inj heq).2
          exact ⟨rfl, rfl⟩
      | _ => exact absurd (start_unique h h' heq) (by simp [Tree.start])
  | lastItem front v back ih =>
      intro t' h' r r' hr hr' heq
      obtain ⟨hfront, hv, hback⟩ := all_lastItem.mp h
      cases t' with
      | lastItem front' v' back' =>
          obtain ⟨hfront', hv', hback'⟩ := all_lastItem.mp h'
          simp only [Tree.text, List.append_assoc, List.cons_append, List.nil_append] at heq
          obtain ⟨rfl, rfl, rfl, -, rfl⟩ := (ih hv).between hv hv' hfront hfront' hback hback'
            hbracket hbracket heq
          exact ⟨rfl, rfl⟩
      | item front' v' back' rest' =>
          obtain ⟨hfront', hv', hback', -⟩ := all_item.mp h'
          simp only [Tree.text, List.append_assoc, List.cons_append, List.nil_append] at heq
          obtain ⟨-, -, -, hstop, -⟩ := (ih hv).between hv hv' hfront hfront' hback hback'
            hbracket hcomma heq
          exact absurd hstop (by decide)
  | item front v back rest ihv ihrest =>
      intro t' h' r r' hr hr' heq
      obtain ⟨hfront, hv, hback, hrest⟩ := all_item.mp h
      cases t' with
      | lastItem front' v' back' =>
          obtain ⟨hfront', hv', hback'⟩ := all_lastItem.mp h'
          simp only [Tree.text, List.append_assoc, List.cons_append, List.nil_append] at heq
          obtain ⟨-, -, -, hstop, -⟩ := (ihv hv).between hv hv' hfront hfront' hback hback'
            hcomma hbracket heq
          exact absurd hstop (by decide)
      | item front' v' back' rest' =>
          obtain ⟨hfront', hv', hback', hrest'⟩ := all_item.mp h'
          simp only [Tree.text, List.append_assoc, List.cons_append] at heq
          obtain ⟨rfl, rfl, rfl, -, hmore⟩ := (ihv hv).between hv hv' hfront hfront' hback hback'
            hcomma hcomma heq
          obtain ⟨rfl, rfl⟩ := ihrest hrest rest' hrest' r r' hr hr' hmore
          exact ⟨rfl, rfl⟩
  | lastMember front key mid gap v back ih =>
      intro t' h' r r' hr hr' heq
      obtain ⟨hfront, hkey, hmid, hgap, hv, hback⟩ := all_lastMember.mp h
      cases t' with
      | lastMember front' key' mid' gap' v' back' =>
          obtain ⟨hfront', hkey', hmid', hgap', hv', hback'⟩ := all_lastMember.mp h'
          simp only [Tree.text, List.append_assoc, List.cons_append, List.nil_append] at heq
          obtain ⟨rfl, rfl, rfl, hvalue⟩ := key_unique hfront hfront' hkey hkey' hmid hmid' heq
          obtain ⟨rfl, rfl, rfl, -, rfl⟩ := (ih hv).between hv hv' hgap hgap' hback hback'
            hbrace hbrace hvalue
          exact ⟨rfl, rfl⟩
      | member front' key' mid' gap' v' back' rest' =>
          obtain ⟨hfront', hkey', hmid', hgap', hv', hback', -⟩ := all_member.mp h'
          simp only [Tree.text, List.append_assoc, List.cons_append, List.nil_append] at heq
          obtain ⟨-, -, -, hvalue⟩ := key_unique hfront hfront' hkey hkey' hmid hmid' heq
          obtain ⟨-, -, -, hstop, -⟩ := (ih hv).between hv hv' hgap hgap' hback hback'
            hbrace hcomma hvalue
          exact absurd hstop (by decide)
  | member front key mid gap v back rest ihv ihrest =>
      intro t' h' r r' hr hr' heq
      obtain ⟨hfront, hkey, hmid, hgap, hv, hback, hrest⟩ := all_member.mp h
      cases t' with
      | lastMember front' key' mid' gap' v' back' =>
          obtain ⟨hfront', hkey', hmid', hgap', hv', hback'⟩ := all_lastMember.mp h'
          simp only [Tree.text, List.append_assoc, List.cons_append, List.nil_append] at heq
          obtain ⟨-, -, -, hvalue⟩ := key_unique hfront hfront' hkey hkey' hmid hmid' heq
          obtain ⟨-, -, -, hstop, -⟩ := (ihv hv).between hv hv' hgap hgap' hback hback'
            hcomma hbrace hvalue
          exact absurd hstop (by decide)
      | member front' key' mid' gap' v' back' rest' =>
          obtain ⟨hfront', hkey', hmid', hgap', hv', hback', hrest'⟩ := all_member.mp h'
          simp only [Tree.text, List.append_assoc, List.cons_append] at heq
          obtain ⟨rfl, rfl, rfl, hvalue⟩ := key_unique hfront hfront' hkey hkey' hmid hmid' heq
          obtain ⟨rfl, rfl, rfl, -, hmore⟩ := (ihv hv).between hv hv' hgap hgap' hback hback'
            hcomma hcomma hvalue
          obtain ⟨rfl, rfl⟩ := ihrest hrest rest' hrest' r r' hr hr' hmore
          exact ⟨rfl, rfl⟩

/-- A text as a whole: a value with blanks around it. -/
structure Layout where
  front : Bytes
  tree : Tree .value
  back : Bytes

namespace Layout

def text (L : Layout) : Bytes := L.front ++ (L.tree.text ++ L.back)

/-- All tokens of a text meet a condition. -/
def All (P : Token → Prop) (L : Layout) : Prop :=
  P (.blank L.front) ∧ L.tree.All P ∧ P (.blank L.back)

/-- **A text has one layout.** -/
theorem eq_of_text {L L' : Layout} (h : L.All Token.Shaped) (h' : L'.All Token.Shaped)
    (heq : L.text = L'.text) : L = L' := by
  obtain ⟨front, tree, back⟩ := L
  obtain ⟨front', tree', back'⟩ := L'
  obtain ⟨hfront, htree, hback⟩ := h
  obtain ⟨hfront', htree', hback'⟩ := h'
  have hends : ∀ {blank : Bytes}, (Token.blank blank).Shaped → Ends blank := by
    intro blank hblank
    rw [← List.append_nil blank]
    exact ends_blank hblank ends_nil
  obtain ⟨rfl, hrest⟩ :=
    blank_unique hfront hfront' (tree.solid_text htree _) (tree'.solid_text htree' _) heq
  obtain ⟨rfl, rfl⟩ :=
    text_unique tree htree tree' htree' back back' (hends hback) (hends hback') hrest
  rfl

end Layout

/-! ## Meaning and tokens -/

section Eval

variable {ν : Type} {number number' : Bytes → Option ν} {string string' : List Piece → Option Bytes}

/-- What a meaning of numbers and strings asks of a token. -/
def Token.Means (number : Bytes → Option ν) (string : List Piece → Option Bytes) : Token → Prop
  | .blank _ => True
  | .number token => (number token).isSome
  | .string pieces => (string pieces).isSome

/-- A tree has a meaning when all its tokens have one. -/
theorem eval_isSome_iff {k : Kind} (t : Tree k) :
    (t.eval number string).isSome ↔ t.All (Token.Means number string) := by
  induction t with
  | null | bool => simp [Tree.eval, Tree.All, Tree.tokens]
  | emptyArray | emptyObject | number token | string pieces =>
      simp [Tree.eval, Tree.All, Tree.tokens, Token.Means]
  | array items ih | object members ih =>
      rw [Tree.eval, Option.isSome_map]
      exact ih
  | lastItem front v back ih =>
      rw [all_lastItem, ← ih]
      simp [Tree.eval, Token.Means]
  | item front v back rest ihv ihrest =>
      rw [all_item, ← ihv, ← ihrest, Tree.eval]
      cases v.eval number string <;> simp [Token.Means]
  | lastMember front key mid gap v back ih =>
      rw [all_lastMember, ← ih, Tree.eval]
      cases hkey : string key <;> simp [Token.Means, hkey]
  | member front key mid gap v back rest ihv ihrest =>
      rw [all_member, ← ihv, ← ihrest, Tree.eval]
      cases hkey : string key <;> cases v.eval number string <;> simp [Token.Means, hkey]

/-- Two meanings that agree on a token. -/
def Token.Agree (number number' : Bytes → Option ν) (string string' : List Piece → Option Bytes) :
    Token → Prop
  | .blank _ => True
  | .number token => number token = number' token
  | .string pieces => string pieces = string' pieces

/-- Meanings that agree on the tokens agree on the tree. -/
theorem eval_congr {k : Kind} (t : Tree k)
    (h : t.All (Token.Agree number number' string string')) :
    t.eval number string = t.eval number' string' := by
  induction t with
  | null | bool | emptyArray | emptyObject => rfl
  | number token =>
      have htoken : number token = number' token := h _ List.mem_cons_self
      rw [Tree.eval, Tree.eval, htoken]
  | string pieces =>
      have hpieces : string pieces = string' pieces := h _ List.mem_cons_self
      rw [Tree.eval, Tree.eval, hpieces]
  | array items ih | object members ih => rw [Tree.eval, Tree.eval, ih h]
  | lastItem front v back ih => rw [Tree.eval, Tree.eval, ih (all_lastItem.mp h).2.1]
  | item front v back rest ihv ihrest =>
      obtain ⟨-, hv, -, hrest⟩ := all_item.mp h
      rw [Tree.eval, Tree.eval, ihv hv, ihrest hrest]
  | lastMember front key mid gap v back ih =>
      obtain ⟨-, hkey, -, -, hv, -⟩ := all_lastMember.mp h
      have hpieces : string key = string' key := hkey
      rw [Tree.eval, Tree.eval, ih hv, hpieces]
  | member front key mid gap v back rest ihv ihrest =>
      obtain ⟨-, hkey, -, -, hv, -, hrest⟩ := all_member.mp h
      have hpieces : string key = string' key := hkey
      rw [Tree.eval, Tree.eval, ihv hv, ihrest hrest, hpieces]

end Eval

/-! ## JSON texts -/

/-- The bytes are the UTF-8 form of some characters. -/
def IsUtf8 (s : Bytes) : Prop := ∃ cs : List Char, s = cs.flatMap String.utf8EncodeChar

/-- A JSON text: the grammar, in UTF-8. -/
structure Layout.IsJsonText (L : Layout) : Prop where
  grammar : L.All Token.IsJson
  utf8 : IsUtf8 L.text

theorem Token.IsJson.shaped {token : Token} (h : token.IsJson) : token.Shaped := by
  cases token with
  | blank s => exact h
  | string pieces => exact fun p hp => (h p hp).shaped
  | number s =>
      obtain ⟨n, hn, rfl⟩ := h
      refine ⟨?_, hn.toFits.isNumberByte⟩
      obtain ⟨d, ds, hwhole⟩ := List.exists_cons_of_ne_nil hn.whole_ne
      rw [NumberText.text, hwhole]
      cases n.negative with
      | true => exact ⟨minus, _, rfl, Or.inl rfl⟩
      | false => exact ⟨d, _, rfl, Or.inr (hn.whole d (by rw [hwhole]; exact List.mem_cons_self))⟩

theorem Layout.All.imp {P Q : Token → Prop} {L : Layout} (h : L.All P)
    (himp : ∀ token, P token → Q token) : L.All Q :=
  ⟨himp _ h.1, fun token htoken => himp token (h.2.1 token htoken), himp _ h.2.2⟩

/-- What the pieces of a string stand for one by one. -/
def units (pieces : List Piece) : Bytes := pieces.flatMap Piece.bytes

/-- No string of a text holds two surrogates that belong together. -/
def Token.NoPair : Token → Prop
  | .string pieces => pieces.IsChain fun p q => surrogatePair p q = none
  | _ => True

theorem decode_eq_units (h : (Token.string pieces).NoPair) : decode pieces = units pieces := by
  change pieces.IsChain (fun p q => surrogatePair p q = none) at h
  induction pieces with
  | nil => rfl
  | cons p ps ih =>
      cases ps with
      | nil => simp [decode, units]
      | cons q rest =>
          obtain ⟨hpair, hrest⟩ := List.isChain_cons_cons.mp h
          rw [decode, hpair]
          dsimp only
          rw [ih hrest]
          rfl

end JsonSyntax
