import CodeScope.Library.JsonText

/-! # Braces outside strings

A text can be read for its braces alone: string literals are passed over, with their escapes, and
the open braces are counted. `Closed` is the grammar of the texts after which nothing is open, where
a closing brace too many counts for nothing; `Balanced` has none of these. Whatever the JSON reader
consumes as a value is balanced. -/

namespace JsonText

/-- Where a text is read: outside strings, inside one, or behind a backslash in one. -/
inductive Mode where
  | plain
  | inString
  | escaped
deriving DecidableEq, Repr

/-- Read one byte, with the number of braces that are open. -/
def Mode.next (m : Mode) (opened : ℕ) (c : UInt8) : Mode × ℕ :=
  match m with
  | .plain =>
    if c = quote then (.inString, opened)
    else if c = openBrace then (.plain, opened + 1)
    else if c = closeBrace then (.plain, opened - 1)
    else (.plain, opened)
  | .inString =>
    if c = backslash then (.escaped, opened)
    else if c = quote then (.plain, opened)
    else (.inString, opened)
  | .escaped => (.inString, opened)

/-- Read a text. -/
def braces (m : Mode) (opened : ℕ) : Bytes → Mode × ℕ
  | [] => (m, opened)
  | c :: s => braces (m.next opened c).1 (m.next opened c).2 s

theorem braces_append (m : Mode) (opened : ℕ) (s t : Bytes) :
    braces m opened (s ++ t) = braces (braces m opened s).1 (braces m opened s).2 t := by
  induction s generalizing m opened with
  | nil => rfl
  | cons c s ih => exact ih _ _

/-! ## The grammar -/

/-- The inside of a string literal. -/
inductive StringBody : Bytes → Prop where
  | nil : StringBody []
  | char {c : UInt8} {s : Bytes} (hquote : c ≠ quote) (hbackslash : c ≠ backslash)
      (rest : StringBody s) : StringBody (c :: s)
  | escape (c : UInt8) {s : Bytes} (rest : StringBody s) : StringBody (backslash :: c :: s)

/-- A byte that neither begins a string literal nor is a brace. -/
structure IsPlain (c : UInt8) : Prop where
  quote : c ≠ quote
  openBrace : c ≠ openBrace
  closeBrace : c ≠ closeBrace

instance (c : UInt8) : Decidable (IsPlain c) :=
  decidable_of_iff (c ≠ quote ∧ c ≠ openBrace ∧ c ≠ closeBrace)
    ⟨fun h => ⟨h.1, h.2.1, h.2.2⟩, fun h => ⟨h.quote, h.openBrace, h.closeBrace⟩⟩

/-- Every string literal is closed, and every brace has its partner. -/
inductive Balanced : Bytes → Prop where
  | nil : Balanced []
  | char {c : UInt8} {s : Bytes} (hc : IsPlain c) (rest : Balanced s) : Balanced (c :: s)
  | literal {body s : Bytes} (inside : StringBody body) (rest : Balanced s) :
      Balanced (quote :: (body ++ quote :: s))
  | group {inner s : Bytes} (inside : Balanced inner) (rest : Balanced s) :
      Balanced (openBrace :: (inner ++ closeBrace :: s))

/-- Every string literal and every open brace is closed. -/
inductive Closed : Bytes → Prop where
  | nil : Closed []
  | char {c : UInt8} {s : Bytes} (hc : IsPlain c) (rest : Closed s) : Closed (c :: s)
  | stray {s : Bytes} (rest : Closed s) : Closed (closeBrace :: s)
  | literal {body s : Bytes} (inside : StringBody body) (rest : Closed s) :
      Closed (quote :: (body ++ quote :: s))
  | group {inner s : Bytes} (inside : Balanced inner) (rest : Closed s) :
      Closed (openBrace :: (inner ++ closeBrace :: s))

variable {s t : Bytes} {opened : ℕ} {c : UInt8}

theorem StringBody.append (hs : StringBody s) (ht : StringBody t) : StringBody (s ++ t) := by
  induction hs with
  | nil => exact ht
  | char hquote hbackslash _ ih => exact .char hquote hbackslash ih
  | escape c _ ih => exact .escape c ih

theorem Balanced.append (hs : Balanced s) (ht : Balanced t) : Balanced (s ++ t) := by
  induction hs with
  | nil => exact ht
  | char hc _ ih => exact .char hc ih
  | literal inside _ ih =>
      rw [List.cons_append, List.append_assoc, List.cons_append]
      exact .literal inside ih
  | group inside _ _ ih =>
      rw [List.cons_append, List.append_assoc, List.cons_append]
      exact .group inside ih

theorem Balanced.plain (h : ∀ c ∈ s, IsPlain c) : Balanced s := by
  induction s with
  | nil => exact .nil
  | cons c s ih =>
      exact .char (h c List.mem_cons_self) (ih fun d hd => h d (List.mem_cons_of_mem c hd))

/-! ## The grammar and the reader -/

section

variable (opened : ℕ)

@[simp] theorem next_quote : Mode.plain.next opened quote = (.inString, opened) := rfl

@[simp] theorem next_openBrace : Mode.plain.next opened openBrace = (.plain, opened + 1) := rfl

@[simp] theorem next_closeBrace : Mode.plain.next opened closeBrace = (.plain, opened - 1) := rfl

@[simp] theorem next_endQuote : Mode.inString.next opened quote = (.plain, opened) := rfl

@[simp] theorem next_backslash : Mode.inString.next opened backslash = (.escaped, opened) := rfl

@[simp] theorem next_escaped (c : UInt8) : Mode.escaped.next opened c = (.inString, opened) := rfl

theorem next_plain {c : UInt8} (hc : IsPlain c) :
    Mode.plain.next opened c = (.plain, opened) := by
  rw [Mode.next, if_neg hc.quote, if_neg hc.openBrace, if_neg hc.closeBrace]

theorem next_inString {c : UInt8} (hquote : c ≠ quote) (hbackslash : c ≠ backslash) :
    Mode.inString.next opened c = (.inString, opened) := by
  rw [Mode.next, if_neg hbackslash, if_neg hquote]

end

theorem StringBody.braces {body : Bytes} (h : StringBody body) (opened : ℕ) :
    braces .inString opened body = (.inString, opened) := by
  induction h with
  | nil => rfl
  | char hquote hbackslash _ ih => rw [JsonText.braces, next_inString _ hquote hbackslash, ih]
  | escape c _ ih => simp only [JsonText.braces, next_backslash, next_escaped, ih]

theorem braces_literal {body : Bytes} (h : StringBody body) (opened : ℕ) (s : Bytes) :
    braces .plain opened (quote :: (body ++ quote :: s)) = braces .plain opened s := by
  rw [braces, next_quote, braces_append, h.braces, braces, next_endQuote]

theorem Balanced.braces (h : Balanced s) (opened : ℕ) :
    braces .plain opened s = (.plain, opened) := by
  induction h generalizing opened with
  | nil => rfl
  | char hc _ ih => rw [JsonText.braces, next_plain _ hc, ih]
  | literal inside _ ih => rw [braces_literal inside, ih]
  | group _ _ inside rest =>
      rw [JsonText.braces, next_openBrace, braces_append, inside, JsonText.braces, next_closeBrace,
        Nat.add_sub_cancel, rest]

theorem Closed.braces (h : Closed s) : braces .plain 0 s = (.plain, 0) := by
  induction h with
  | nil => rfl
  | char hc _ ih => rw [JsonText.braces, next_plain _ hc, ih]
  | stray _ ih => rw [JsonText.braces, next_closeBrace, ih]
  | literal inside _ ih => rw [braces_literal inside, ih]
  | group inside _ ih =>
      rw [JsonText.braces, next_openBrace, braces_append, inside.braces, JsonText.braces,
        next_closeBrace]
      exact ih

/-- What can follow outside strings so that nothing is open at the end. -/
def ClosesFrom : ℕ → Bytes → Prop
  | 0, s => Closed s
  | opened + 1, s =>
    ∃ inner rest, s = inner ++ closeBrace :: rest ∧ Balanced inner ∧ ClosesFrom opened rest

/-- What can follow so that nothing is open at the end. -/
def Completes : Mode → ℕ → Bytes → Prop
  | .plain, opened, s => ClosesFrom opened s
  | .inString, opened, s =>
    ∃ body rest, s = body ++ quote :: rest ∧ StringBody body ∧ ClosesFrom opened rest
  | .escaped, opened, s =>
    ∃ c body rest, s = c :: (body ++ quote :: rest) ∧ StringBody body ∧ ClosesFrom opened rest

theorem ClosesFrom.char (hc : IsPlain c) (h : ClosesFrom opened s) :
    ClosesFrom opened (c :: s) := by
  cases opened with
  | zero => exact Closed.char hc h
  | succ opened =>
      obtain ⟨inner, rest, rfl, hinner, hrest⟩ := h
      exact ⟨c :: inner, rest, rfl, .char hc hinner, hrest⟩

theorem ClosesFrom.literal {body : Bytes} (hbody : StringBody body) (h : ClosesFrom opened s) :
    ClosesFrom opened (quote :: (body ++ quote :: s)) := by
  cases opened with
  | zero => exact Closed.literal hbody h
  | succ opened =>
      obtain ⟨inner, rest, rfl, hinner, hrest⟩ := h
      exact ⟨quote :: (body ++ quote :: inner), rest, by simp, .literal hbody hinner, hrest⟩

theorem ClosesFrom.group {inner : Bytes} (hinner : Balanced inner) (h : ClosesFrom opened s) :
    ClosesFrom opened (openBrace :: (inner ++ closeBrace :: s)) := by
  cases opened with
  | zero => exact Closed.group hinner h
  | succ opened =>
      obtain ⟨inner', rest, rfl, hinner', hrest⟩ := h
      exact ⟨openBrace :: (inner ++ closeBrace :: inner'), rest, by simp, .group hinner hinner',
        hrest⟩

/-- A text that the reader ends with nothing open is one that completes where it began. -/
theorem completes_of_braces {m : Mode} (h : braces m opened s = (.plain, 0)) :
    Completes m opened s := by
  induction s generalizing m opened with
  | nil =>
      obtain ⟨rfl, rfl⟩ := Prod.mk.inj h
      exact Closed.nil
  | cons c s ih =>
      have hrest := ih h
      cases m with
      | escaped =>
          obtain ⟨body, rest, rfl, hbody, hclose⟩ := hrest
          exact ⟨c, body, rest, rfl, hbody, hclose⟩
      | inString =>
          by_cases hbackslash : c = backslash
          · subst hbackslash
            obtain ⟨d, body, rest, rfl, hbody, hclose⟩ := hrest
            exact ⟨backslash :: d :: body, rest, rfl, .escape d hbody, hclose⟩
          · by_cases hquote : c = quote
            · subst hquote
              exact ⟨[], s, rfl, .nil, hrest⟩
            · rw [next_inString _ hquote hbackslash] at hrest
              obtain ⟨body, rest, rfl, hbody, hclose⟩ := hrest
              exact ⟨c :: body, rest, rfl, .char hquote hbackslash hbody, hclose⟩
      | plain =>
          by_cases hquote : c = quote
          · subst hquote
            obtain ⟨body, rest, rfl, hbody, hclose⟩ := hrest
            exact hclose.literal hbody
          · by_cases hopen : c = openBrace
            · subst hopen
              obtain ⟨inner, rest, rfl, hinner, hclose⟩ := hrest
              exact hclose.group hinner
            · by_cases hclosing : c = closeBrace
              · subst hclosing
                cases opened with
                | zero => exact Closed.stray hrest
                | succ opened => exact ⟨[], s, rfl, .nil, hrest⟩
              · have hc : IsPlain c := ⟨hquote, hopen, hclosing⟩
                rw [next_plain _ hc] at hrest
                exact ClosesFrom.char hc hrest

/-- **The grammar is what the reader ends with nothing open.** -/
theorem closed_iff : Closed s ↔ braces .plain 0 s = (.plain, 0) :=
  ⟨Closed.braces, completes_of_braces⟩

/-! ## What the reader of values consumes -/

/-- `t` is what is left of `s` behind a text that satisfies `P`. -/
def Behind (P : Bytes → Prop) (s t : Bytes) : Prop := ∃ u, s = u ++ t ∧ P u

theorem isPlain_of_isSpace (h : isSpace c = true) : IsPlain c := by
  constructor <;> (rintro rfl; exact absurd h (by decide))

theorem isPlain_of_isDigit (h : isDigit c = true) : IsPlain c := by
  constructor <;> (rintro rfl; exact absurd h (by decide))

theorem behind_skipSpace (s : Bytes) : Behind Balanced s (skipSpace s) :=
  ⟨s.takeWhile isSpace, (List.takeWhile_append_dropWhile).symm,
    .plain fun _ hc => isPlain_of_isSpace (List.mem_takeWhile_imp hc)⟩

theorem Behind.trans {r : Bytes} (hst : Behind Balanced s t) (htr : Behind Balanced t r) :
    Behind Balanced s r := by
  obtain ⟨u, rfl, hu⟩ := hst
  obtain ⟨v, rfl, hv⟩ := htr
  exact ⟨u ++ v, (List.append_assoc u v r).symm, hu.append hv⟩

theorem Behind.cons (hc : IsPlain c) : Behind Balanced (c :: s) s :=
  ⟨[c], rfl, .char hc .nil⟩

theorem hexValue_inString (h : (hexValue c).isSome = true) : c ≠ quote ∧ c ≠ backslash := by
  constructor <;> (rintro rfl; exact absurd h (by decide))

/-- The digits of a code unit are ordinary bytes of a string. -/
theorem stringBody_codeUnit {a b d : UInt8} (h : (codeUnit a b c d).isSome = true)
    (hs : StringBody s) : StringBody (a :: b :: c :: d :: s) := by
  have hall : (hexValue a).isSome = true ∧ (hexValue b).isSome = true ∧
      (hexValue c).isSome = true ∧ (hexValue d).isSome = true := by
    rw [codeUnit] at h
    cases ha : hexValue a with
    | none => simp [ha] at h
    | some _ =>
        cases hb : hexValue b with
        | none => simp [ha, hb] at h
        | some _ =>
            cases hc : hexValue c with
            | none => simp [ha, hb, hc] at h
            | some _ =>
                cases hd : hexValue d with
                | none => simp [ha, hb, hc, hd] at h
                | some _ => exact ⟨rfl, rfl, rfl, rfl⟩
  obtain ⟨ha, hb, hc, hd⟩ := hall
  have hchar {e : UInt8} (he : (hexValue e).isSome = true) {l : Bytes} (hl : StringBody l) :
      StringBody (e :: l) := .char (hexValue_inString he).1 (hexValue_inString he).2 hl
  exact hchar ha (hchar hb (hchar hc (hchar hd hs)))

/-- An escape sequence with its backslash is inside a string. -/
theorem behind_escapeSequence {e : Bytes} (h : escapeSequence s = some (e, t)) :
    Behind StringBody (backslash :: s) t := by
  cases s with
  | nil => exact absurd h (by simp [escapeSequence])
  | cons c rest =>
      simp only [escapeSequence] at h
      by_cases hu : c = 0x75
      · rw [if_pos hu] at h
        rcases rest with - | ⟨h₁, - | ⟨h₂, - | ⟨h₃, - | ⟨h₄, rest⟩⟩⟩⟩
        iterate 4 exact absurd h (by simp)
        dsimp only at h
        cases hcode : codeUnit h₁ h₂ h₃ h₄ with
        | none => simp [hcode] at h
        | some u =>
            have hunit : (codeUnit h₁ h₂ h₃ h₄).isSome = true := by rw [hcode]; rfl
            simp only [hcode] at h
            split_ifs at h with hlow hhigh
            · rcases rest with - | ⟨b, - | ⟨v, - | ⟨l₁, - | ⟨l₂, - | ⟨l₃, - | ⟨l₄, rest⟩⟩⟩⟩⟩⟩
              iterate 6 exact absurd h (by simp)
              dsimp only at h
              split_ifs at h with hsecond
              cases hcode' : codeUnit l₁ l₂ l₃ l₄ with
              | none => simp [hcode'] at h
              | some w =>
                  have hunit' : (codeUnit l₁ l₂ l₃ l₄).isSome = true := by rw [hcode']; rfl
                  simp only [hcode'] at h
                  split_ifs at h with hw
                  obtain ⟨rfl, rfl⟩ := Prod.mk.inj (Option.some.inj h)
                  rw [hsecond.1]
                  exact ⟨[backslash, c, h₁, h₂, h₃, h₄, backslash, v, l₁, l₂, l₃, l₄], rfl,
                    .escape c (stringBody_codeUnit hunit
                      (.escape v (stringBody_codeUnit hunit' .nil)))⟩
            · obtain ⟨rfl, rfl⟩ := Prod.mk.inj (Option.some.inj h)
              exact ⟨[backslash, c, h₁, h₂, h₃, h₄], rfl,
                .escape c (stringBody_codeUnit hunit .nil)⟩
      · rw [if_neg hu] at h
        cases hs : shortEscape c with
        | none => simp [hs] at h
        | some x =>
            obtain ⟨rfl, rfl⟩ := by simpa [hs] using h
            exact ⟨[backslash, c], rfl, .escape c .nil⟩

theorem stringBody_split {n : ℕ} {k : Bytes} (h : stringBody n s = some (k, t)) :
    ∃ body, s = body ++ quote :: t ∧ StringBody body := by
  induction n generalizing s k with
  | zero => exact absurd h (by simp [stringBody])
  | succ n ih =>
      cases s with
      | nil => exact absurd h (by simp [stringBody])
      | cons c rest =>
          rw [stringBody] at h
          by_cases hquote : c = quote
          · rw [if_pos hquote] at h
            obtain ⟨rfl, rfl⟩ := Prod.mk.inj (Option.some.inj h)
            exact ⟨[], by rw [hquote]; rfl, .nil⟩
          · rw [if_neg hquote] at h
            by_cases hbackslash : c = backslash
            · rw [if_pos hbackslash] at h
              cases hescape : escapeSequence rest with
              | none => simp [hescape] at h
              | some r =>
                  obtain ⟨e, rest'⟩ := r
                  simp only [hescape, Option.map_eq_some_iff] at h
                  obtain ⟨⟨k', t'⟩, hbody, heq⟩ := h
                  obtain ⟨-, rfl⟩ := Prod.mk.inj heq
                  obtain ⟨body, rfl, hinside⟩ := ih hbody
                  obtain ⟨u, hu, hescaped⟩ := behind_escapeSequence hescape
                  refine ⟨u ++ body, ?_, hescaped.append hinside⟩
                  rw [hbackslash, hu, List.append_assoc]
            · rw [if_neg hbackslash] at h
              split_ifs at h
              obtain ⟨⟨k', t'⟩, hbody, heq⟩ := Option.map_eq_some_iff.mp h
              obtain ⟨-, rfl⟩ := Prod.mk.inj heq
              obtain ⟨body, rfl, hinside⟩ := ih hbody
              exact ⟨c :: body, rfl, .char hquote hbackslash hinside⟩

theorem Behind.refl (s : Bytes) : Behind Balanced s s := ⟨[], rfl, .nil⟩

theorem behind_digits (s : Bytes) : Behind Balanced s (digits s).2 :=
  ⟨s.takeWhile isDigit, (List.takeWhile_append_dropWhile).symm,
    .plain fun _ hc => isPlain_of_isDigit (List.mem_takeWhile_imp hc)⟩

theorem behind_sign (s : Bytes) : Behind Balanced s (sign s).2 := by
  cases s with
  | nil => exact Behind.refl _
  | cons c rest =>
      rw [sign]
      split_ifs with hc
      · rw [hc]
        exact Behind.cons (by decide)
      · exact Behind.refl _

theorem behind_fraction {fr : Bytes} (h : fraction s = some (fr, t)) : Behind Balanced s t := by
  cases s with
  | nil =>
      obtain ⟨-, rfl⟩ := Prod.mk.inj (Option.some.inj h)
      exact Behind.refl _
  | cons c rest =>
      rw [fraction] at h
      split_ifs at h with hdot
      · obtain ⟨-, rfl⟩ := Prod.mk.inj (Option.some.inj h)
        rw [hdot]
        exact (Behind.cons (by decide)).trans (behind_digits rest)
      · obtain ⟨-, rfl⟩ := Prod.mk.inj (Option.some.inj h)
        exact Behind.refl _

theorem behind_exponentDigits {mark ex : Bytes} (h : exponentDigits mark s = some (ex, t)) :
    Behind Balanced s t := by
  rw [exponentDigits] at h
  split_ifs at h
  obtain ⟨-, rfl⟩ := Prod.mk.inj (Option.some.inj h)
  exact behind_digits s

theorem isPlain_of_isExponentMark (h : isExponentMark c = true) : IsPlain c := by
  constructor <;> (rintro rfl; exact absurd h (by decide))

theorem behind_exponent {ex : Bytes} (h : exponent s = some (ex, t)) : Behind Balanced s t := by
  cases s with
  | nil =>
      obtain ⟨-, rfl⟩ := Prod.mk.inj (Option.some.inj h)
      exact Behind.refl _
  | cons c rest =>
      simp only [exponent] at h
      split_ifs at h with hmark
      · have hc := isPlain_of_isExponentMark hmark
        cases rest with
        | nil => exact absurd h (by simp)
        | cons sg more =>
            dsimp only at h
            split_ifs at h with hsign
            · have hsg : IsPlain sg := by
                rcases hsign with rfl | rfl
                · decide
                · decide
              exact (Behind.cons hc).trans ((Behind.cons hsg).trans (behind_exponentDigits h))
            · exact (Behind.cons hc).trans (behind_exponentDigits h)
      · obtain ⟨-, rfl⟩ := Prod.mk.inj (Option.some.inj h)
        exact Behind.refl _

theorem behind_number {v : Value} (h : number s = some (v, t)) : Behind Balanced s t := by
  simp only [number] at h
  split at h
  · exact absurd h (by simp)
  · cases hfraction : fraction (digits (sign s).2).2 with
    | none => simp [hfraction] at h
    | some r =>
        obtain ⟨fr, s₃⟩ := r
        simp only [hfraction] at h
        cases hexponent : exponent s₃ with
        | none => simp [hexponent] at h
        | some r =>
            obtain ⟨ex, s₄⟩ := r
            simp only [hexponent] at h
            have hall : Behind Balanced s s₄ :=
              (behind_sign s).trans ((behind_digits _).trans
                ((behind_fraction hfraction).trans (behind_exponent hexponent)))
            split at h
            · obtain ⟨-, rfl⟩ := Prod.mk.inj (Option.some.inj h)
              exact hall
            · obtain ⟨-, rfl⟩ := Prod.mk.inj (Option.some.inj h)
              exact hall

theorem behind_literal {name : Bytes} {v w : Value} (hname : (name.all fun c => IsPlain c) = true)
    (h : literal name v s = some (w, t)) : Behind Balanced s t := by
  rw [literal] at h
  split_ifs at h with hpfx
  obtain ⟨-, rfl⟩ := Prod.mk.inj (Option.some.inj h)
  obtain ⟨rest, rfl⟩ := List.isPrefixOf_iff_prefix.mp hpfx
  exact ⟨name, by rw [List.drop_left], .plain fun c hc =>
    of_decide_eq_true (List.all_eq_true.mp hname c hc)⟩

/-- `t` is what is left of `s` behind a balanced text and a closing byte. -/
def BehindClosing (c : UInt8) (s t : Bytes) : Prop := Behind Balanced s (c :: t)

/-- What the three readers consume in so many steps. -/
structure ReadsBalanced (n : ℕ) : Prop where
  value : ∀ {s : Bytes} {v : Value} {t : Bytes}, value n s = some (v, t) → Behind Balanced s t
  items : ∀ {s : Bytes} {vs : List Value} {t : Bytes}, items n s = some (vs, t) →
    BehindClosing closeBracket s t
  members : ∀ {s : Bytes} {ms : List (Bytes × Value)} {t : Bytes}, members n s = some (ms, t) →
    BehindClosing closeBrace s t

theorem BehindClosing.group (h : BehindClosing closeBrace s t) :
    Behind Balanced (openBrace :: s) t := by
  obtain ⟨inner, rfl, hinner⟩ := h
  exact ⟨openBrace :: (inner ++ [closeBrace]), by simp, .group hinner .nil⟩

theorem Behind.skipSpace_eq (h : skipSpace s = t) : Behind Balanced s t :=
  h ▸ behind_skipSpace s

theorem value_balanced {n : ℕ} (h : ReadsBalanced n) {v : Value}
    (hvalue : JsonText.value (n + 1) s = some (v, t)) : Behind Balanced s t := by
  rw [JsonText.value] at hvalue
  refine (behind_skipSpace s).trans ?_
  cases hspace : skipSpace s with
  | nil => simp [hspace] at hvalue
  | cons c rest =>
      simp only [hspace] at hvalue
      split_ifs at hvalue with hquote hbracket hbrace htrue hfalse hnull
      · obtain ⟨⟨k, t'⟩, hbody, heq⟩ := Option.map_eq_some_iff.mp hvalue
        obtain ⟨-, rfl⟩ := Prod.mk.inj heq
        obtain ⟨body, rfl, hinside⟩ := stringBody_split hbody
        exact ⟨quote :: (body ++ [quote]), by rw [hquote]; simp, .literal hinside .nil⟩
      · have hopen : Behind Balanced (c :: rest) (skipSpace rest) :=
          (Behind.cons (by rw [hbracket]; decide)).trans (behind_skipSpace rest)
        refine hopen.trans ?_
        cases hnext : skipSpace rest with
        | nil => simp [hnext] at hvalue
        | cons d more =>
            simp only [hnext] at hvalue
            split_ifs at hvalue with hclose
            · obtain ⟨-, rfl⟩ := Prod.mk.inj (Option.some.inj hvalue)
              exact Behind.cons (by rw [hclose]; decide)
            · obtain ⟨⟨vs, t'⟩, hitems, heq⟩ := Option.map_eq_some_iff.mp hvalue
              obtain ⟨-, rfl⟩ := Prod.mk.inj heq
              exact (h.items hitems).trans (Behind.cons (by decide))
      · cases hnext : skipSpace rest with
        | nil => simp [hnext] at hvalue
        | cons d more =>
            simp only [hnext] at hvalue
            rw [hbrace]
            split_ifs at hvalue with hclose
            · obtain ⟨-, rfl⟩ := Prod.mk.inj (Option.some.inj hvalue)
              refine BehindClosing.group ?_
              rw [← hclose]
              exact Behind.skipSpace_eq hnext
            · obtain ⟨⟨ms, t'⟩, hmembers, heq⟩ := Option.map_eq_some_iff.mp hvalue
              obtain ⟨-, rfl⟩ := Prod.mk.inj heq
              exact BehindClosing.group ((Behind.skipSpace_eq hnext).trans (h.members hmembers))
      · exact behind_literal (by decide) hvalue
      · exact behind_literal (by decide) hvalue
      · exact behind_literal (by decide) hvalue
      · exact behind_number hvalue

theorem items_balanced {n : ℕ} (h : ReadsBalanced n) {vs : List Value}
    (hitems : JsonText.items (n + 1) s = some (vs, t)) : BehindClosing closeBracket s t := by
  rw [JsonText.items] at hitems
  cases hvalue : JsonText.value n s with
  | none => simp [hvalue] at hitems
  | some r =>
      obtain ⟨v, s'⟩ := r
      simp only [hvalue] at hitems
      refine (h.value hvalue).trans ?_
      cases hnext : skipSpace s' with
      | nil => simp [hnext] at hitems
      | cons c rest =>
          simp only [hnext] at hitems
          refine (Behind.skipSpace_eq hnext).trans ?_
          split_ifs at hitems with hcomma hclose
          · obtain ⟨⟨vs', t'⟩, hmore, heq⟩ := Option.map_eq_some_iff.mp hitems
            obtain ⟨-, rfl⟩ := Prod.mk.inj heq
            exact (Behind.cons (by rw [hcomma]; decide)).trans (h.items hmore)
          · obtain ⟨-, rfl⟩ := Prod.mk.inj (Option.some.inj hitems)
            rw [hclose]
            exact Behind.refl _

theorem members_balanced {n : ℕ} (h : ReadsBalanced n) {ms : List (Bytes × Value)}
    (hmembers : JsonText.members (n + 1) s = some (ms, t)) : BehindClosing closeBrace s t := by
  rw [JsonText.members] at hmembers
  refine (behind_skipSpace s).trans ?_
  cases hspace : skipSpace s with
  | nil => simp [hspace] at hmembers
  | cons q s₁ =>
      simp only [hspace] at hmembers
      split_ifs at hmembers with hquote
      cases hkey : stringBody n s₁ with
      | none => simp [hkey] at hmembers
      | some r =>
          obtain ⟨k, s₂⟩ := r
          simp only [hkey] at hmembers
          obtain ⟨body, rfl, hinside⟩ := stringBody_split hkey
          have hliteral : Behind Balanced (q :: (body ++ quote :: s₂)) s₂ :=
            ⟨quote :: (body ++ [quote]), by rw [hquote]; simp, .literal hinside .nil⟩
          refine hliteral.trans ?_
          cases hcolon : skipSpace s₂ with
          | nil => simp [hcolon] at hmembers
          | cons c s₃ =>
              simp only [hcolon] at hmembers
              refine (Behind.skipSpace_eq hcolon).trans ?_
              split_ifs at hmembers with hc
              refine (Behind.cons (by rw [hc]; decide)).trans ?_
              cases hvalue : JsonText.value n s₃ with
              | none => simp [hvalue] at hmembers
              | some r =>
                  obtain ⟨v, s₄⟩ := r
                  simp only [hvalue] at hmembers
                  refine (h.value hvalue).trans ?_
                  cases hnext : skipSpace s₄ with
                  | nil => simp [hnext] at hmembers
                  | cons d rest =>
                      simp only [hnext] at hmembers
                      refine (Behind.skipSpace_eq hnext).trans ?_
                      split_ifs at hmembers with hcomma hclose
                      · obtain ⟨⟨ms', t'⟩, hmore, heq⟩ := Option.map_eq_some_iff.mp hmembers
                        obtain ⟨-, rfl⟩ := Prod.mk.inj heq
                        exact (Behind.cons (by rw [hcomma]; decide)).trans (h.members hmore)
                      · obtain ⟨-, rfl⟩ := Prod.mk.inj (Option.some.inj hmembers)
                        rw [hclose]
                        exact Behind.refl _

/-- **What is read as a value is balanced.** -/
theorem reads_balanced (n : ℕ) : ReadsBalanced n := by
  induction n with
  | zero =>
      exact ⟨fun h => absurd h (by simp [JsonText.value]),
        fun h => absurd h (by simp [JsonText.items]),
        fun h => absurd h (by simp [JsonText.members])⟩
  | succ n ih => exact ⟨value_balanced ih, items_balanced ih, members_balanced ih⟩

/-- The text of an object, without blanks around it. -/
structure IsObjectText (json : Bytes) (o : Value) : Prop where
  reads : parse json = some o
  opens : json.head? = some openBrace
  closes : json.getLast? = some closeBrace

/-- The text of an object is a group. -/
theorem IsObjectText.group {json : Bytes} {o : Value} (h : IsObjectText json o) :
    ∃ inner, json = openBrace :: (inner ++ [closeBrace]) ∧ Balanced inner := by
  cases json with
  | nil => exact absurd h.opens (by simp)
  | cons c rest =>
      have hc : c = openBrace := Option.some.inj h.opens
      subst hc
      have hreads := h.reads
      rw [parse, JsonText.value] at hreads
      have hspace : skipSpace (openBrace :: rest) = openBrace :: rest := rfl
      -- the reader stops behind the object, and no blanks follow it
      have hend {t : Bytes} (hclosing : BehindClosing closeBrace rest t) (ht : skipSpace t = []) :
          ∃ inner, openBrace :: rest = openBrace :: (inner ++ [closeBrace]) ∧ Balanced inner := by
        obtain ⟨inner, rfl, hinner⟩ := hclosing
        cases t with
        | nil => exact ⟨inner, rfl, hinner⟩
        | cons d t =>
            have hall : ∀ e ∈ d :: t, isSpace e = true := by
              simpa [skipSpace, List.dropWhile_eq_nil_iff] using ht
            have hlast := h.closes
            rw [List.getLast?_cons, List.getLast?_append, List.getLast?_cons_cons] at hlast
            have hmem : closeBrace ∈ d :: t := by
              refine List.mem_of_getLast? ?_
              rw [List.getLast?_cons] at hlast ⊢
              simpa using hlast
            exact absurd (hall _ hmem) (by decide)
      simp only [hspace] at hreads
      rw [if_neg (by decide), if_neg (by decide), if_pos trivial] at hreads
      cases hnext : skipSpace rest with
      | nil => simp [hnext] at hreads
      | cons d more =>
          simp only [hnext] at hreads
          by_cases hclose : d = closeBrace
          · simp only [if_pos hclose] at hreads
            split_ifs at hreads with ht
            have hclosing : BehindClosing closeBrace rest more := by
              rw [← hclose]
              exact Behind.skipSpace_eq hnext
            exact hend hclosing ht
          · simp only [if_neg hclose] at hreads
            cases hmembers : JsonText.members (openBrace :: rest).length (d :: more) with
            | none =>
                rw [hmembers] at hreads
                exact absurd hreads (by simp)
            | some r =>
                obtain ⟨ms, t⟩ := r
                rw [hmembers] at hreads
                simp only [Option.map_some] at hreads
                split_ifs at hreads with ht
                exact hend ((Behind.skipSpace_eq hnext).trans
                  ((reads_balanced _).members hmembers)) ht

end JsonText
