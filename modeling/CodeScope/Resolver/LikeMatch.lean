import CodeScope.Library.SqlText

/-! # The LIKE matcher of the resolver

`sqliteLikeMatch` walks the pattern and the text with two cursors and remembers the last `%` only:
on a mismatch that `%` takes one more character. A character of the model stands for one byte of the
source's strings. -/

namespace CodeScope.Resolver

open Text (Str str lower)
open SqlText

/-- Fold an ASCII letter to lower case. -/
def likeFold (ch : Char) : Char :=
  if 'A' ≤ ch ∧ ch ≤ 'Z' then Char.ofNat (ch.toNat + ('a'.toNat - 'A'.toNat)) else ch

/-- The loops of `sqliteLikeMatch`: `p` and `t` are the cursors, `star_p` the place of the last `%`
    and `match_t` the place in the text aligned with it. -/
def likeLoop (pattern text : Str) (p t : ℕ) (star_p : Option ℕ) (match_t : ℕ) : Bool :=
  if t < text.length then
    if h : pattern[p]? = some '%' then
      likeLoop pattern text (p + 1) t (some p) t
    else if h : pattern[p]? = some '_' ∨ pattern[p]?.map likeFold = text[t]?.map likeFold then
      likeLoop pattern text (p + 1) (t + 1) star_p match_t
    else
      match star_p with
      -- the `%` swallows one more character
      | some star => likeLoop pattern text (star + 1) (match_t + 1) star_p (match_t + 1)
      | none => false
  else (pattern.drop p).all (· = '%')
termination_by (max (text.length - t) (text.length - match_t), pattern.length - p)
decreasing_by
  · have hp := (List.getElem?_eq_some_iff.mp h).1
    rw [Prod.lex_def]
    dsimp only
    omega
  · have hp : p < pattern.length := by
      by_contra hend
      rw [List.getElem?_eq_none (by omega), List.getElem?_eq_getElem (by omega)] at h
      simp at h
    rw [Prod.lex_def]
    dsimp only
    omega
  · rw [Prod.lex_def]
    dsimp only
    omega

def sqliteLikeMatch (pattern text : Str) : Bool := likeLoop pattern text 0 0 none 0

/-! ## Correctness -/

theorem likeFold_eq (ch : Char) : likeFold ch = ch.toLower := by
  by_cases h : ch.val ≥ 'A'.val ∧ ch.val ≤ 'Z'.val
  · have hrange : 'A' ≤ ch ∧ ch ≤ 'Z' := h
    have hle : ch.val.toNat ≤ 90 := h.2
    have hvalid : (ch.val.toNat + 32).isValidChar := Or.inl (by omega)
    have hval : (ch.val + 32).toNat = ch.val.toNat + 32 := by
      rw [UInt32.toNat_add]
      exact Nat.mod_eq_of_lt (by change ch.val.toNat + 32 < 4294967296; omega)
    rw [likeFold, if_pos hrange, Char.toLower, dif_pos h]
    refine Char.ext (UInt32.toNat_inj.mp ?_)
    change (Char.ofNat (ch.val.toNat + 32)).val.toNat = (ch.val + 32).toNat
    rw [hval, Char.ofNat, dif_pos hvalid]
    rfl
  · have hrange : ¬ ('A' ≤ ch ∧ ch ≤ 'Z') := h
    rw [likeFold, if_neg hrange, Char.toLower, dif_neg h]

/-- What the last `%` has taken so far: the tokens between it and the cursor `p` stand for as many
    characters between `match_t` and the cursor `t`. -/
def Aligned (pattern : List LikeToken) (p t star match_t : ℕ) : Prop :=
  ∃ items, .any ∉ items ∧ pattern.drop (star + 1) = items ++ pattern.drop p ∧
    t = match_t + items.length

/-- The last `%` taking more than it has: a later place in the text for the pattern behind it. -/
def Later (pattern : List LikeToken) (text : Str) (star match_t : ℕ) : Prop :=
  ∃ k, match_t < k ∧ k ≤ text.length ∧ LikeLanguage (pattern.drop (star + 1)) (text.drop k)

variable {text pattern : Str}

theorem Aligned.later {pattern : List LikeToken} {p t star match_t : ℕ}
    (h : Aligned pattern p t star match_t) (hlater : Later pattern text star match_t) :
    ∃ k, t < k ∧ k ≤ text.length ∧ LikeLanguage (pattern.drop p) (text.drop k) := by
  obtain ⟨items, hitems, hpattern, rfl⟩ := h
  obtain ⟨k, hk, hend, hmatch⟩ := hlater
  rw [hpattern] at hmatch
  obtain ⟨hlen, hrest⟩ := language_items hitems hmatch
  rw [List.length_drop] at hlen
  rw [List.drop_drop] at hrest
  exact ⟨k + items.length, by omega, by omega, hrest⟩

theorem drop_of_getElem? {α : Type} {l : List α} {n : ℕ} {a : α} (h : l[n]? = some a) :
    l.drop n = a :: l.drop (n + 1) := by
  obtain ⟨hn, rfl⟩ := List.getElem?_eq_some_iff.mp h
  exact List.drop_eq_getElem_cons hn

theorem drop_tokens {p : ℕ} {c : Char} (h : pattern[p]? = some c) :
    (pattern.map LikeToken.ofChar).drop p =
      .ofChar c :: (pattern.map LikeToken.ofChar).drop (p + 1) := by
  refine drop_of_getElem? ?_
  rw [List.getElem?_map, h]
  rfl

theorem ofChar_ne_any {c : Char} (h : c ≠ '%') : LikeToken.ofChar c ≠ .any := by
  rw [LikeToken.ofChar, if_neg h]
  split_ifs <;> simp

theorem ofChar_fits {c d : Char} (h : c ≠ '%') :
    (LikeToken.ofChar c).Fits d ↔ c = '_' ∨ likeFold c = likeFold d := by
  rw [likeFold_eq, likeFold_eq]
  unfold LikeToken.ofChar
  by_cases hone : c = '_'
  · simp [hone, LikeToken.Fits]
  · simp [h, hone, LikeToken.Fits]

theorem ofChar_eq_any {c : Char} : LikeToken.ofChar c = .any ↔ c = '%' := by
  constructor
  · intro h
    by_contra hne
    exact ofChar_ne_any hne h
  · rintro rfl
    rfl

theorem both_of_fits {p t : ℕ} (hmore : t < text.length)
    (h : pattern[p]? = some '_' ∨ pattern[p]?.map likeFold = text[t]?.map likeFold) :
    ∃ c d, pattern[p]? = some c ∧ text[t]? = some d ∧ (c = '_' ∨ likeFold c = likeFold d) := by
  rw [List.getElem?_eq_getElem hmore] at h ⊢
  cases hc : pattern[p]? with
  | none => simp [hc] at h
  | some c => exact ⟨c, _, rfl, rfl, by simpa [hc] using h⟩

/-- A mismatch: the rest of the text does not match the rest of the pattern. -/
theorem not_language_of_not_fits {p t : ℕ} (hmore : t < text.length)
    (hpercent : ¬ pattern[p]? = some '%')
    (hfits : ¬ (pattern[p]? = some '_' ∨ pattern[p]?.map likeFold = text[t]?.map likeFold)) :
    ¬ LikeLanguage ((pattern.map .ofChar).drop p) (text.drop t) := by
  have hd := List.getElem?_eq_getElem hmore
  cases hc : pattern[p]? with
  | none =>
      rw [drop_of_getElem? hd, ← List.map_drop,
        List.drop_of_length_le (List.getElem?_eq_none_iff.mp hc)]
      simp [LikeLanguage, hmore]
  | some c =>
      have hne : c ≠ '%' := fun heq => hpercent (by rw [hc, heq])
      rw [drop_tokens hc, drop_of_getElem? hd, language_cons (ofChar_ne_any hne), ofChar_fits hne]
      rw [hc, hd] at hfits
      simp only [Option.some.injEq, Option.map_some] at hfits
      exact fun h => hfits h.1

/-- **The loop decides whether the rest of the text matches the rest of the pattern**, or would with
    a longer run for the last `%`; the invariant is that the tokens since that `%` are aligned. -/
theorem likeLoop_iff {p t match_t : ℕ} {star_p : Option ℕ} (ht : t ≤ text.length)
    (hstar : ∀ star ∈ star_p, Aligned (pattern.map .ofChar) p t star match_t) :
    likeLoop pattern text p t star_p match_t = true ↔
      LikeLanguage ((pattern.map .ofChar).drop p) (text.drop t) ∨
        ∃ star ∈ star_p, Later (pattern.map .ofChar) text star match_t := by
  fun_induction likeLoop pattern text p t star_p match_t with
  | case1 p t star_p match_t hmore hpercent ih =>
      have hdrop : (pattern.map LikeToken.ofChar).drop p =
          .any :: (pattern.map LikeToken.ofChar).drop (p + 1) := drop_tokens hpercent
      rw [ih ht (fun star heq => by
        rw [← Option.some.inj heq]
        exact ⟨[], by simp, rfl, rfl⟩)]
      constructor
      · rintro (hhere | ⟨star, heq, k, hk, hend, hmatch⟩)
        · rw [hdrop, language_any ht]
          exact Or.inl ⟨t, le_refl t, ht, hhere⟩
        · rw [← Option.some.inj heq] at hmatch
          rw [hdrop, language_any ht]
          exact Or.inl ⟨k, hk.le, hend, hmatch⟩
      · intro h
        -- a longer run for the `%` before this one is one for this one
        have hall : LikeLanguage (.any :: (pattern.map LikeToken.ofChar).drop (p + 1))
            (text.drop t) := by
          rcases h with hhere | ⟨star, heq, hlater⟩
          · rw [hdrop] at hhere
            exact hhere
          · obtain ⟨k, hk, hend, hmatch⟩ := (hstar star heq).later hlater
            rw [hdrop, language_any hend] at hmatch
            obtain ⟨k', hk', hend', hmatch'⟩ := hmatch
            exact (language_any ht).mpr ⟨k', by omega, hend', hmatch'⟩
        obtain ⟨k, hk, hend, hmatch⟩ := (language_any ht).mp hall
        rcases Nat.eq_or_lt_of_le hk with rfl | hlt
        · exact Or.inl hmatch
        · exact Or.inr ⟨p, rfl, k, hlt, hend, hmatch⟩
  | case2 p t star_p match_t hmore hpercent hfits ih =>
      obtain ⟨c, d, hc, hd, hfit⟩ := both_of_fits hmore hfits
      have hne : c ≠ '%' := fun heq => hpercent (by rw [hc, heq])
      have hany := ofChar_ne_any hne
      rw [ih (by omega) (fun star heq => ?_), drop_tokens hc, drop_of_getElem? hd,
        language_cons hany, and_iff_right ((ofChar_fits hne).mpr hfit)]
      obtain ⟨items, hitems, hpattern, hlen⟩ := hstar star heq
      refine ⟨items ++ [.ofChar c], ?_, ?_, ?_⟩
      · simp [hitems, Ne.symm hany]
      · rw [hpattern, drop_tokens hc, List.append_assoc, List.singleton_append]
      · rw [List.length_append, List.length_singleton]
        omega
  | case3 p t match_t hmore hpercent hfits star ih =>
      have hhere := not_language_of_not_fits hmore hpercent hfits
      obtain ⟨items, hitems, hpattern, hlen⟩ := hstar star rfl
      have haligned : ∀ other ∈ some star,
          Aligned (pattern.map .ofChar) (star + 1) (match_t + 1) other (match_t + 1) := by
        intro other heq
        rw [← Option.some.inj heq]
        exact ⟨[], by simp, rfl, rfl⟩
      rw [ih (by omega) haligned, or_iff_right hhere]
      simp only [Option.mem_some_iff, exists_eq_left']
      constructor
      · rintro (hnext | ⟨k, hk, hend, hmatch⟩)
        · exact ⟨match_t + 1, by omega, by omega, hnext⟩
        · exact ⟨k, by omega, hend, hmatch⟩
      · rintro ⟨k, hk, hend, hmatch⟩
        rcases Nat.eq_or_lt_of_le hk with rfl | hlt
        · exact Or.inl hmatch
        · exact Or.inr ⟨k, hlt, hend, hmatch⟩
  | case4 p t match_t hmore hpercent hfits =>
      have hhere := not_language_of_not_fits hmore hpercent hfits
      simp [hhere]
  | case5 p t star_p match_t hend =>
      have hfull : t = text.length := by omega
      have hlater : ¬ ∃ star ∈ star_p, Later (pattern.map .ofChar) text star match_t := by
        rintro ⟨star, heq, hlater⟩
        obtain ⟨k, hk, hle, _⟩ := (hstar star heq).later hlater
        omega
      rw [or_iff_left hlater, hfull, List.drop_length, language_nil_iff, ← List.map_drop]
      simp only [List.all_eq_true, List.mem_map, decide_eq_true_eq, forall_exists_index, and_imp,
        forall_apply_eq_imp_iff₂, ofChar_eq_any]

theorem sqliteLikeMatch_eq_like (pattern text : Str) :
    sqliteLikeMatch pattern text = like none pattern text := by
  rw [Bool.eq_iff_iff, sqliteLikeMatch, likeLoop_iff (Nat.zero_le _) (by simp), like,
    likeTokens_unescaped, matchTokens_iff]
  simp

/-- **The matcher is `LIKE`**: it accepts a text exactly when the text is in the language of the
    pattern, where `%` stands for any text, `_` for any one character and every other character for
    itself up to the case of ASCII letters. -/
theorem sqliteLikeMatch_iff (pattern text : Str) :
    sqliteLikeMatch pattern text = true ↔ LikeLanguage (pattern.map .ofChar) text := by
  rw [sqliteLikeMatch, likeLoop_iff (Nat.zero_le _) (by simp)]
  simp

end CodeScope.Resolver
