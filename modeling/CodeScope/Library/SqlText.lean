import CodeScope.Library.Text

/-! # Text operators of SQL

`LOWER` and `LIKE` fold the case of ASCII letters only. A `LIKE` pattern is a list of tokens: `%`
stands for any text, `_` for one character, anything else for itself up to case; the character after
the escape character stands for itself. A pattern that ends in its escape character matches
nothing. -/

namespace SqlText

open Text

inductive LikeToken where
  | any
  | one
  | lit (c : Char)
deriving DecidableEq, Repr

/-- The token of a character that is not escaped. -/
def LikeToken.ofChar (c : Char) : LikeToken :=
  if c = '%' then .any else if c = '_' then .one else .lit c

/-- The tokens of a pattern; none when it ends in the escape character. -/
def likeTokens (escape : Option Char) : Str → Option (List LikeToken)
  | [] => some []
  | [c] => if escape = some c then none else some [.ofChar c]
  | c :: d :: rest =>
      if escape = some c then (likeTokens escape rest).map (.lit d :: ·)
      else (likeTokens escape (d :: rest)).map (.ofChar c :: ·)

theorem likeTokens_plain {escape : Option Char} {c : Char} (h : escape ≠ some c) (rest : Str) :
    likeTokens escape (c :: rest) = (likeTokens escape rest).map (.ofChar c :: ·) := by
  cases rest with
  | nil => simp [likeTokens, h]
  | cons d rest => rw [likeTokens, if_neg h]

/-- The texts of a list of tokens. -/
def matchTokens : List LikeToken → Str → Bool
  | [], s => s.isEmpty
  | .any :: ts, s => s.tails.any (matchTokens ts)
  | .one :: ts, s =>
      match s with
      | [] => false
      | _ :: s' => matchTokens ts s'
  | .lit c :: ts, s =>
      match s with
      | [] => false
      | d :: s' => c.toLower = d.toLower && matchTokens ts s'

/-- The language of a list of tokens. -/
def LikeLanguage : List LikeToken → Str → Prop
  | [], s => s = []
  | .any :: ts, s => ∃ run rest, s = run ++ rest ∧ LikeLanguage ts rest
  | .one :: ts, s => ∃ d rest, s = d :: rest ∧ LikeLanguage ts rest
  | .lit c :: ts, s => ∃ d rest, s = d :: rest ∧ c.toLower = d.toLower ∧ LikeLanguage ts rest

/-- `s LIKE pattern`, with or without an `ESCAPE`. -/
def like (escape : Option Char) (pattern s : Str) : Bool :=
  match likeTokens escape pattern with
  | some ts => matchTokens ts s
  | none => false

/-- `REPLACE(s, c, by)` for a single character. -/
def replaceChar (c : Char) (by_ : Str) (s : Str) : Str :=
  s.flatMap fun d => if d = c then by_ else [d]

/-- `SUBSTR(s, INSTR(s, sep) + 1)` where `sep` occurs. -/
def afterFirst (sep : Char) (s : Str) : Str := (s.dropWhile (· ≠ sep)).tail

/-- The pattern whose text is `s` itself: every special character escaped. -/
def escapeWith (esc : Char) (special : List Char) (s : Str) : Str :=
  s.flatMap fun c => if c ∈ special then [esc, c] else [c]

/-! ## The language -/

variable {ts : List LikeToken} {s : Str}

theorem matchTokens_iff : matchTokens ts s = true ↔ LikeLanguage ts s := by
  induction ts generalizing s with
  | nil => simp [matchTokens, LikeLanguage]
  | cons t ts ih =>
      cases t with
      | any =>
          rw [matchTokens, List.any_eq_true]
          constructor
          · intro ⟨rest, hmem, hrest⟩
            obtain ⟨run, hsplit⟩ := (List.mem_tails _ _).mp hmem
            exact ⟨run, rest, hsplit.symm, ih.mp hrest⟩
          · intro ⟨run, rest, hsplit, hrest⟩
            refine ⟨rest, ?_, ih.mpr hrest⟩
            rw [List.mem_tails, hsplit]
            exact List.suffix_append run rest
      | one | lit c => cases s <;> simp [matchTokens, LikeLanguage, ih]

/-- The characters that a token other than `%` stands for. -/
def LikeToken.Fits : LikeToken → Char → Prop
  | .any, _ => False
  | .one, _ => True
  | .lit c, d => c.toLower = d.toLower

theorem language_cons {t : LikeToken} (ht : t ≠ .any) {d : Char} :
    LikeLanguage (t :: ts) (d :: s) ↔ t.Fits d ∧ LikeLanguage ts s := by
  cases t with
  | any => exact absurd rfl ht
  | one | lit c => simp [LikeLanguage, LikeToken.Fits]

theorem not_language_nil {t : LikeToken} (ht : t ≠ .any) (ts : List LikeToken) :
    ¬ LikeLanguage (t :: ts) [] := by
  cases t with
  | any => exact absurd rfl ht
  | one => simp [LikeLanguage]
  | lit c => simp [LikeLanguage]

theorem language_any {t : ℕ} (ht : t ≤ s.length) :
    LikeLanguage (.any :: ts) (s.drop t) ↔
      ∃ k, t ≤ k ∧ k ≤ s.length ∧ LikeLanguage ts (s.drop k) := by
  constructor
  · intro ⟨run, rest, hsplit, hrest⟩
    have hlen := congrArg List.length hsplit
    rw [List.length_drop, List.length_append] at hlen
    refine ⟨t + run.length, by omega, by omega, ?_⟩
    rw [← List.drop_drop, hsplit, List.drop_left]
    exact hrest
  · intro ⟨k, hk, _, hrest⟩
    obtain ⟨n, rfl⟩ := Nat.exists_eq_add_of_le hk
    refine ⟨(s.drop t).take n, s.drop (t + n), ?_, hrest⟩
    rw [← List.drop_drop, List.take_append_drop]

theorem language_items {items : List LikeToken} (hitems : .any ∉ items)
    (h : LikeLanguage (items ++ ts) s) :
    items.length ≤ s.length ∧ LikeLanguage ts (s.drop items.length) := by
  induction items generalizing s with
  | nil => exact ⟨Nat.zero_le _, h⟩
  | cons t items ih =>
      simp only [List.mem_cons, not_or] at hitems
      cases s with
      | nil => exact absurd h (not_language_nil (Ne.symm hitems.1) _)
      | cons d s =>
          obtain ⟨hlen, hrest⟩ := ih hitems.2 ((language_cons (Ne.symm hitems.1)).mp h).2
          exact ⟨Nat.succ_le_succ hlen, hrest⟩

theorem language_nil_iff : LikeLanguage ts [] ↔ ∀ t ∈ ts, t = .any := by
  induction ts with
  | nil => simp [LikeLanguage]
  | cons t ts ih =>
      cases t with
      | any => simp [LikeLanguage, ih]
      | one => simp [LikeLanguage]
      | lit c => simp [LikeLanguage]

/-! ## Literal patterns -/

/-- A pattern of literal characters matches a text up to the case of ASCII letters. -/
theorem matchTokens_lit (s t : Str) :
    matchTokens (s.map .lit) t = true ↔ lower s = lower t := by
  induction s generalizing t with
  | nil =>
      cases t with
      | nil => exact iff_of_true rfl rfl
      | cons d t => exact iff_of_false (by simp [matchTokens]) (by simp [lower])
  | cons c s ih =>
      cases t with
      | nil => exact iff_of_false (by simp [matchTokens]) (by simp [lower])
      | cons d t =>
          have hstep : matchTokens ((c :: s).map .lit) (d :: t) =
              (decide (c.toLower = d.toLower) && matchTokens (s.map .lit) t) := rfl
          rw [hstep, Bool.and_eq_true, decide_eq_true_eq, ih]
          simp [lower]

/-- A text with its special characters escaped is read back as it is, in front of any pattern. -/
theorem likeTokens_escapeWith_append (s rest : Str) :
    likeTokens (some '\\') (escapeWith '\\' ['%', '_', '\\'] s ++ rest) =
      (likeTokens (some '\\') rest).map (s.map .lit ++ ·) := by
  induction s with
  | nil => simp [escapeWith]
  | cons c s ih =>
      have hcons : escapeWith '\\' ['%', '_', '\\'] (c :: s) =
          (if c ∈ ['%', '_', '\\'] then ['\\', c] else [c]) ++
            escapeWith '\\' ['%', '_', '\\'] s := rfl
      rw [hcons, List.append_assoc]
      by_cases hc : c ∈ ['%', '_', '\\']
      · rw [if_pos hc, List.cons_append, List.cons_append, List.nil_append, likeTokens, if_pos rfl,
          ih, Option.map_map]
        rfl
      · rw [if_neg hc, List.cons_append, List.nil_append]
        simp only [List.mem_cons, List.not_mem_nil, or_false, not_or] at hc
        have hesc : some '\\' ≠ some c := fun h => hc.2.2 (Option.some.inj h).symm
        rw [likeTokens_plain hesc, ih, LikeToken.ofChar, if_neg hc.1, if_neg hc.2.1,
          Option.map_map]
        rfl

theorem likeTokens_escapeWith (s : Str) :
    likeTokens (some '\\') (escapeWith '\\' ['%', '_', '\\'] s) = some (s.map .lit) := by
  have h := likeTokens_escapeWith_append s []
  rwa [List.append_nil, likeTokens, Option.map_some, List.append_nil] at h

/-- **`LIKE '%' || escaped` finds the texts that end as given**, up to the case of ASCII letters. -/
theorem like_any_escapeWith (s t : Str) :
    like (some '\\') ('%' :: escapeWith '\\' ['%', '_', '\\'] s) t = true ↔
      ∃ u, u <:+ t ∧ lower s = lower u := by
  have htokens : likeTokens (some '\\') ('%' :: escapeWith '\\' ['%', '_', '\\'] s) =
      some (.any :: s.map .lit) := by
    rw [likeTokens_plain (by decide), likeTokens_escapeWith]
    rfl
  rw [like, htokens]
  simp only [matchTokens, List.any_eq_true, List.mem_tails, matchTokens_lit]

theorem likeTokens_unescaped (s : Str) : likeTokens none s = some (s.map .ofChar) := by
  induction s with
  | nil => rfl
  | cons c s ih =>
      rw [likeTokens_plain (by simp), ih]
      rfl

/-- Literal characters in front of a closing `%` match a beginning. -/
theorem matchTokens_lit_any (s t : Str) :
    matchTokens (s.map .lit ++ [.any]) t = true ↔ lower s <+: lower t := by
  induction s generalizing t with
  | nil =>
      have hany : matchTokens [.any] t = true :=
        List.any_eq_true.mpr ⟨[], by simp, rfl⟩
      exact iff_of_true hany (List.nil_prefix)
  | cons c s ih =>
      cases t with
      | nil => exact iff_of_false (by simp [matchTokens]) (by simp [lower])
      | cons d t =>
          have hstep : matchTokens ((c :: s).map .lit ++ [.any]) (d :: t) =
              (decide (c.toLower = d.toLower) && matchTokens (s.map .lit ++ [.any]) t) := rfl
          rw [hstep, Bool.and_eq_true, decide_eq_true_eq, ih]
          simp [lower, List.cons_prefix_cons]

theorem tails_lower (s : Str) : (lower s).tails = s.tails.map lower := by
  induction s with
  | nil => rfl
  | cons c s ih =>
      have hcons : lower (c :: s) = c.toLower :: lower s := rfl
      rw [hcons, List.tails_cons, List.tails_cons, ih, List.map_cons]
      rfl

theorem matchTokens_any_lit (s t : Str) :
    matchTokens (.any :: s.map .lit) t = true ↔ lower s <:+ lower t := by
  rw [← List.mem_tails, tails_lower]
  simp only [matchTokens, List.any_eq_true, matchTokens_lit, List.mem_map]
  exact exists_congr fun u => and_congr_right fun _ => eq_comm

theorem map_ofChar_plain {word : Str} (hany : '%' ∉ word) (hone : '_' ∉ word) :
    word.map LikeToken.ofChar = word.map .lit := by
  refine List.map_congr_left fun c hc => ?_
  have hc1 : c ≠ '%' := fun heq => hany (heq ▸ hc)
  have hc2 : c ≠ '_' := fun heq => hone (heq ▸ hc)
  rw [LikeToken.ofChar, if_neg hc1, if_neg hc2]

/-- **`LIKE '%' || word || '%'` finds the texts that contain the word**, up to the case of ASCII
    letters, as long as the word has no wildcards. -/
theorem like_any_plain_any {word : Str} (hany : '%' ∉ word) (hone : '_' ∉ word) (t : Str) :
    like none (str "%" ++ word ++ str "%") t = true ↔
      contains (lower word) (lower t) = true := by
  have htokens : likeTokens none (str "%" ++ word ++ str "%") =
      some (.any :: (word.map .lit ++ [.any])) := by
    rw [likeTokens_unescaped, List.map_append, List.map_append, map_ofChar_plain hany hone]
    rfl
  rw [like, htokens, contains, tails_lower]
  simp only [matchTokens, List.any_eq_true, List.mem_map, matchTokens_lit_any,
    List.isPrefixOf_iff_prefix, exists_exists_and_eq_and]

/-! ## Initial patterns -/

theorem eq_of_toLower_eq {c d : Char} (hd : d.isAlpha = false) (h : c.toLower = d) : c = d := by
  by_cases hup : c.isUpper = true
  · have hletter : c.toLower.isAlpha = true := by
      rw [Char.isAlpha_toLower_eq_isAlpha, Char.isAlpha, hup, Bool.true_or]
    rw [h, hd] at hletter
    exact absurd hletter (by decide)
  · rwa [Char.toLower_eq_of_not_isUpper hup] at h

theorem toLower_eq_iff {c d : Char} (hd : d.isAlpha = false) : c.toLower = d ↔ c = d := by
  constructor
  · exact eq_of_toLower_eq hd
  · rintro rfl
    refine Char.toLower_eq_of_not_isUpper fun hup => ?_
    rw [Char.isAlpha, hup, Bool.true_or] at hd
    exact absurd hd (by decide)

theorem mem_lower_iff {d : Char} (hd : d.isAlpha = false) : d ∈ lower s ↔ d ∈ s := by
  simp only [lower, List.mem_map, toLower_eq_iff hd, exists_eq_right]

@[simp] theorem lower_lower (s : Str) : lower (lower s) = lower s := by
  rw [lower, lower, List.map_map]
  exact List.map_congr_left fun c _ =>
    Char.toLower_eq_of_not_isUpper (by rw [Char.isUpper_toLower_eq_false]; decide)

theorem lower_escapeWith (s : Str) :
    lower (escapeWith '\\' ['%', '_', '\\'] s) = escapeWith '\\' ['%', '_', '\\'] (lower s) := by
  induction s with
  | nil => rfl
  | cons c s ih =>
      have hcons : ∀ d t, escapeWith '\\' ['%', '_', '\\'] (d :: t) =
          (if d ∈ ['%', '_', '\\'] then ['\\', d] else [d]) ++
            escapeWith '\\' ['%', '_', '\\'] t := fun _ _ => rfl
      have hlower : lower (c :: s) = c.toLower :: lower s := rfl
      have hspecial : c.toLower ∈ ['%', '_', '\\'] ↔ c ∈ ['%', '_', '\\'] := by
        simp only [List.mem_cons, List.not_mem_nil, or_false]
        rw [toLower_eq_iff (by decide), toLower_eq_iff (by decide), toLower_eq_iff (by decide)]
      rw [hcons, hlower, hcons, ← ih]
      by_cases hc : c ∈ ['%', '_', '\\']
      · rw [if_pos hc, if_pos (hspecial.mpr hc)]
        rfl
      · rw [if_neg hc, if_neg (fun h => hc (hspecial.mp h))]
        rfl

/-- **`LIKE escaped || '%'` finds the texts that begin as given**, up to the case of ASCII
    letters. -/
theorem like_escapeWith_any (s t : Str) :
    like (some '\\') (escapeWith '\\' ['%', '_', '\\'] s ++ ['%']) t = true ↔
      lower s <+: lower t := by
  have htokens : likeTokens (some '\\') ['%'] = some [.any] := rfl
  rw [like, likeTokens_escapeWith_append, htokens]
  exact matchTokens_lit_any s t

/-- What `LIKE p || '%'` finds when the wildcards of `p` are in force. -/
def InitialLike (p s : Str) : Prop := LikeLanguage (p.map .ofChar ++ [.any]) s

theorem like_plain_any (p s : Str) : like none (p ++ ['%']) s = true ↔ InitialLike p s := by
  have htokens : likeTokens none (p ++ ['%']) = some (p.map .ofChar ++ [.any]) := by
    rw [likeTokens_unescaped, List.map_append]
    rfl
  rw [like, htokens]
  exact matchTokens_iff

instance (p s : Str) : Decidable (InitialLike p s) := decidable_of_iff _ (like_plain_any p s)

/-- The text itself is one of the texts that its pattern begins. -/
theorem initialLike_of_initial {p : Str} (h : lower p <+: lower s) : InitialLike p s := by
  induction p generalizing s with
  | nil => exact ⟨s, [], (List.append_nil s).symm, rfl⟩
  | cons c p ih =>
      cases s with
      | nil => exact absurd h (by simp [lower])
      | cons d s =>
          have hcons : ∀ e t, lower (e :: t) = e.toLower :: lower t := fun _ _ => rfl
          rw [hcons, hcons, List.cons_prefix_cons] at h
          show LikeLanguage (LikeToken.ofChar c :: (p.map .ofChar ++ [.any])) (d :: s)
          have hrest := ih h.2
          by_cases hany : c = '%'
          · rw [LikeToken.ofChar, if_pos hany]
            exact ⟨[d], s, rfl, hrest⟩
          · by_cases hone : c = '_'
            · rw [LikeToken.ofChar, if_neg hany, if_pos hone]
              exact ⟨d, s, rfl, hrest⟩
            · rw [LikeToken.ofChar, if_neg hany, if_neg hone]
              exact ⟨d, s, rfl, h.1, hrest⟩

/-- **Without wildcards a pattern begins the texts that begin with it.** -/
theorem initialLike_iff {p : Str} (hany : '%' ∉ p) (hone : '_' ∉ p) :
    InitialLike p s ↔ lower p <+: lower s := by
  refine ⟨fun h => ?_, initialLike_of_initial⟩
  rw [InitialLike, map_ofChar_plain hany hone] at h
  exact (matchTokens_lit_any p s).mp (matchTokens_iff.mpr h)

theorem like_any_of_contains {word t : Str} (h : contains (lower word) (lower t) = true) :
    like none (str "%" ++ word ++ str "%") t = true := by
  rw [contains, tails_lower] at h
  obtain ⟨u, hu, hword⟩ := List.any_eq_true.mp h
  obtain ⟨rest, hrest, rfl⟩ := List.mem_map.mp hu
  obtain ⟨run, rfl⟩ := List.mem_tails _ _ |>.mp hrest
  have htokens : likeTokens none (str "%" ++ word ++ str "%") =
      some (.any :: (word.map .ofChar ++ [.any])) := by
    rw [likeTokens_unescaped, List.map_append, List.map_append]
    rfl
  rw [like, htokens]
  exact matchTokens_iff.mpr
    ⟨run, rest, rfl, initialLike_of_initial (List.isPrefixOf_iff_prefix.mp hword)⟩

/-- A literal that is no letter occurs in what its tokens match. -/
theorem mem_of_language {c : Char} (hc : c.isAlpha = false) (h : LikeLanguage ts s)
    (hmem : .lit c ∈ ts) : c ∈ s := by
  induction ts generalizing s with
  | nil => exact absurd hmem List.not_mem_nil
  | cons t ts ih =>
      cases t with
      | any =>
          obtain ⟨run, rest, rfl, hrest⟩ := h
          exact List.mem_append_right run (ih hrest (by simpa using hmem))
      | one =>
          obtain ⟨d, rest, rfl, hrest⟩ := h
          exact List.mem_cons_of_mem d (ih hrest (by simpa using hmem))
      | lit e =>
          obtain ⟨d, rest, rfl, hfold, hrest⟩ := h
          rcases List.mem_cons.mp hmem with heq | hmem
          · obtain rfl : c = e := LikeToken.lit.inj heq
            rw [(toLower_eq_iff hc).mpr rfl] at hfold
            rw [eq_of_toLower_eq hc hfold.symm]
            exact List.mem_cons_self
          · exact List.mem_cons_of_mem d (ih hrest hmem)

example : like (some '\\') (str "%/a\\_b") (str "/src/A_b") = true := by decide

end SqlText
