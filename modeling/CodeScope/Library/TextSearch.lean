import CodeScope.Library.Text

/-! # Searching a text

The first place at or behind a position where a needle stands, characters compared by any relation.
A search for the empty needle, or from behind the end, finds nothing. -/

namespace TextSearch

open Text

variable (same : Char → Char → Bool)

/-- The needle stands at the beginning of the text. -/
def startsWith : Str → Str → Bool
  | [], _ => true
  | _ :: _, [] => false
  | a :: needle, b :: text => same a b && startsWith needle text

/-- The first place of a needle that is not empty. -/
def firstPlace (needle : Str) : Str → Option ℕ
  | [] => none
  | b :: text =>
      if startsWith same needle (b :: text) then some 0
      else (firstPlace needle text).map (· + 1)

/-- The search from a position on. -/
def findFrom (needle text : Str) (start : ℕ) : Option ℕ :=
  if needle = [] ∨ text.length ≤ start then none
  else (firstPlace same needle (text.drop start)).map (· + start)

/-- Equality up to the case of ASCII letters. -/
def sameLetter (a b : Char) : Bool := a.toLower = b.toLower

/-- The position behind the characters from `pos` on that satisfy `p`. -/
def skipWhile (p : Char → Bool) (text : Str) (pos : ℕ) : ℕ :=
  pos + ((text.drop pos).takeWhile p).length

variable {same} {needle text : Str} {start p : ℕ}

theorem startsWith_length (h : startsWith same needle text = true) :
    needle.length ≤ text.length := by
  induction needle generalizing text with
  | nil => exact Nat.zero_le _
  | cons a needle ih =>
      cases text with
      | nil => exact absurd h Bool.false_ne_true
      | cons b text =>
          rw [startsWith, Bool.and_eq_true] at h
          exact Nat.succ_le_succ (ih h.2)

theorem firstPlace_bound (h : firstPlace same needle text = some p) :
    p + needle.length ≤ text.length := by
  induction text generalizing p with
  | nil => exact absurd h (by simp [firstPlace])
  | cons b text ih =>
      rw [firstPlace] at h
      by_cases hb : startsWith same needle (b :: text) = true
      · rw [if_pos hb] at h
        obtain rfl : 0 = p := Option.some.inj h
        rw [Nat.zero_add]
        exact startsWith_length hb
      · rw [if_neg hb, Option.map_eq_some_iff] at h
        obtain ⟨q, hq, rfl⟩ := h
        have hbound := ih hq
        rw [List.length_cons]
        omega

/-- **A search stays inside the text** and finds nothing before its start. -/
theorem findFrom_bound (h : findFrom same needle text start = some p) :
    start ≤ p ∧ p + needle.length ≤ text.length ∧ needle ≠ [] := by
  rw [findFrom] at h
  by_cases hstop : needle = [] ∨ text.length ≤ start
  · rw [if_pos hstop] at h
    exact absurd h (by simp)
  · rw [if_neg hstop, Option.map_eq_some_iff] at h
    obtain ⟨q, hq, rfl⟩ := h
    rw [not_or] at hstop
    have hbound := firstPlace_bound hq
    rw [List.length_drop] at hbound
    refine ⟨by omega, by omega, hstop.1⟩

theorem le_skipWhile (q : Char → Bool) (text : Str) (pos : ℕ) : pos ≤ skipWhile q text pos :=
  Nat.le_add_right _ _

/-! ## Exact searches -/

/-- The first place of a needle, characters compared as they are. -/
def find (needle text : Str) : Option ℕ := firstPlace (· == ·) needle text

/-- The first place from `pos` on of a character that satisfies `p`. -/
def findFirst (p : Char → Bool) (text : Str) (pos : ℕ) : Option ℕ :=
  if skipWhile (fun c => ! p c) text pos < text.length then
    some (skipWhile (fun c => ! p c) text pos)
  else none

theorem startsWith_iff : startsWith (· == ·) needle text = true ↔ needle <+: text := by
  induction needle generalizing text with
  | nil => simp [startsWith]
  | cons a needle ih =>
      cases text with
      | nil => simp [startsWith]
      | cons b text => simp [startsWith, ih, List.cons_prefix_cons]

theorem find_eq_some (hne : needle ≠ []) :
    find needle text = some p ↔
      needle <+: text.drop p ∧ ∀ q < p, ¬ needle <+: text.drop q := by
  unfold find
  induction text generalizing p with
  | nil => simp [firstPlace, hne]
  | cons b text ih =>
      rw [firstPlace]
      by_cases hb : needle <+: b :: text
      · rw [if_pos (startsWith_iff.mpr hb)]
        constructor
        · intro h
          obtain rfl : 0 = p := Option.some.inj h
          exact ⟨hb, fun q hq => absurd hq (Nat.not_lt_zero q)⟩
        · rintro ⟨_, hfirst⟩
          by_contra hp
          have hpos : 0 < p := Nat.pos_of_ne_zero fun heq => hp (by rw [heq])
          exact hfirst 0 hpos hb
      · rw [if_neg (mt startsWith_iff.mp hb), Option.map_eq_some_iff]
        constructor
        · rintro ⟨p, hp, rfl⟩
          obtain ⟨hhere, hfirst⟩ := ih.mp hp
          refine ⟨hhere, fun q hq => ?_⟩
          cases q with
          | zero => exact hb
          | succ q => exact hfirst q (Nat.lt_of_succ_lt_succ hq)
        · rintro ⟨hhere, hfirst⟩
          cases p with
          | zero => exact absurd hhere hb
          | succ p => exact ⟨p, ih.mpr ⟨hhere, fun q hq => hfirst (q + 1) (by omega)⟩, rfl⟩

theorem find_eq_none (hne : needle ≠ []) :
    find needle text = none ↔ ∀ q, ¬ needle <+: text.drop q := by
  unfold find
  induction text with
  | nil => simp [firstPlace, hne]
  | cons b text ih =>
      rw [firstPlace]
      by_cases hb : needle <+: b :: text
      · rw [if_pos (startsWith_iff.mpr hb)]
        exact iff_of_false (by simp) fun h => h 0 hb
      · rw [if_neg (mt startsWith_iff.mp hb), Option.map_eq_none_iff, ih]
        constructor
        · intro h q
          cases q with
          | zero => exact hb
          | succ q => exact h q
        · exact fun h q => h (q + 1)

/-- **What is found stays found when the text grows.** -/
theorem find_append (hne : needle ≠ []) (h : find needle text = some p) (more : Str) :
    find needle (text ++ more) = some p := by
  obtain ⟨hhere, hfirst⟩ := (find_eq_some hne).mp h
  have hlen : needle.length ≤ text.length - p := by
    have := hhere.length_le
    rwa [List.length_drop] at this
  have hpos := List.length_pos_iff.mpr hne
  refine (find_eq_some hne).mpr ⟨?_, fun q hq hmore => hfirst q hq ?_⟩
  · rw [List.drop_append_of_le_length (by omega)]
    exact hhere.trans (List.prefix_append _ _)
  · rw [List.drop_append_of_le_length (by omega)] at hmore
    refine List.prefix_of_prefix_length_le hmore (List.prefix_append _ _) ?_
    rw [List.length_drop]
    omega

theorem isPrefix_of_stop {c : Char} (hc : c ∉ needle) {front tail : Str}
    (h : needle <+: front ++ c :: tail) : needle <+: front := by
  rcases List.prefix_or_prefix_of_prefix h (List.prefix_append front (c :: tail)) with
    hshort | ⟨more, rfl⟩
  · exact hshort
  · cases more with
    | nil => rw [List.append_nil]
    | cons d more =>
        rw [List.prefix_append_right_inj, List.cons_prefix_cons] at h
        exact absurd (by simp [h.1]) hc

theorem takeWhile_stop {q : Char → Bool} {c : Char} (hc : q c = false) (front tail : Str) :
    (front ++ c :: tail).takeWhile q = front.takeWhile q := by
  induction front with
  | nil => simp [hc]
  | cons d front ih => simp [List.takeWhile_cons, ih]

theorem skipWhile_stop {q : Char → Bool} {c : Char} (hc : q c = false) {front tail : Str} {pos : ℕ}
    (h : text.drop pos = front ++ c :: tail) :
    text.drop (skipWhile q text pos) = front.dropWhile q ++ c :: tail := by
  have hlen : (front.takeWhile q).length ≤ front.length := (List.takeWhile_prefix q).length_le
  rw [skipWhile, ← List.drop_drop, h, takeWhile_stop hc, List.drop_append_of_le_length hlen]
  have hsplit := congrArg (List.drop (front.takeWhile q).length)
    (List.takeWhile_append_dropWhile (p := q) (l := front))
  rw [List.drop_left] at hsplit
  rw [← hsplit]

/-! ## All places -/

section

variable (same needle text)

/-- The needle stands at a position of the text. -/
def standsAt (p : ℕ) : Bool := startsWith same needle (text.drop p)

end

theorem standsAt_bound (hne : needle ≠ []) (h : standsAt same needle text p = true) :
    p + needle.length ≤ text.length ∧ p < text.length := by
  have hlen := startsWith_length h
  rw [List.length_drop] at hlen
  have hpos := List.length_pos_iff.mpr hne
  omega

theorem startsWith_getElem? (h : startsWith same needle text = true) {i : ℕ}
    (hi : i < needle.length) : ∃ b, text[i]? = some b ∧ same needle[i] b = true := by
  induction needle generalizing text i with
  | nil => exact absurd hi (Nat.not_lt_zero i)
  | cons a needle ih =>
      cases text with
      | nil => exact absurd h Bool.false_ne_true
      | cons b text =>
          rw [startsWith, Bool.and_eq_true] at h
          cases i with
          | zero => exact ⟨b, rfl, h.1⟩
          | succ i => exact ih h.2 (Nat.lt_of_succ_lt_succ hi)

theorem standsAt_getElem? (h : standsAt same needle text p = true) {i : ℕ}
    (hi : i < needle.length) : ∃ b, text[p + i]? = some b ∧ same needle[i] b = true := by
  obtain ⟨b, hb, hsame⟩ := startsWith_getElem? h hi
  rw [List.getElem?_drop] at hb
  exact ⟨b, hb, hsame⟩

theorem startsWith_of_getElem? (h : ∀ i (hi : i < needle.length),
    ∃ b, text[i]? = some b ∧ same needle[i] b = true) : startsWith same needle text = true := by
  induction needle generalizing text with
  | nil => rfl
  | cons a needle ih =>
      obtain ⟨b, hb, hsame⟩ := h 0 (Nat.succ_pos _)
      cases text with
      | nil => exact absurd hb (by simp)
      | cons b' text =>
          obtain rfl : b' = b := by simpa using hb
          rw [startsWith, Bool.and_eq_true]
          refine ⟨hsame, ih fun i hi => ?_⟩
          obtain ⟨d, hd, hsame⟩ := h (i + 1) (Nat.succ_lt_succ hi)
          exact ⟨d, by simpa using hd, by simpa using hsame⟩

theorem standsAt_of_getElem? (h : ∀ i (hi : i < needle.length),
    ∃ b, text[p + i]? = some b ∧ same needle[i] b = true) : standsAt same needle text p = true :=
  startsWith_of_getElem? fun i hi => by
    rw [List.getElem?_drop]
    exact h i hi

theorem firstPlace_eq_some (h : firstPlace same needle text = some p) :
    standsAt same needle text p = true ∧ ∀ q < p, standsAt same needle text q = false := by
  induction text generalizing p with
  | nil => exact absurd h (by simp [firstPlace])
  | cons b text ih =>
      rw [firstPlace] at h
      by_cases hb : startsWith same needle (b :: text) = true
      · rw [if_pos hb] at h
        obtain rfl : 0 = p := Option.some.inj h
        exact ⟨hb, fun q hq => absurd hq (Nat.not_lt_zero q)⟩
      · rw [if_neg hb, Option.map_eq_some_iff] at h
        obtain ⟨p, hp, rfl⟩ := h
        obtain ⟨hhere, hfirst⟩ := ih hp
        refine ⟨hhere, fun q hq => ?_⟩
        cases q with
        | zero => exact Bool.eq_false_iff.mpr hb
        | succ q => exact hfirst q (Nat.lt_of_succ_lt_succ hq)

theorem firstPlace_eq_none (hne : needle ≠ []) (h : firstPlace same needle text = none) (q : ℕ) :
    standsAt same needle text q = false := by
  induction text generalizing q with
  | nil =>
      cases needle with
      | nil => exact absurd rfl hne
      | cons a needle => rw [standsAt, List.drop_nil, startsWith]
  | cons b text ih =>
      rw [firstPlace] at h
      by_cases hb : startsWith same needle (b :: text) = true
      · rw [if_pos hb] at h
        exact absurd h (by simp)
      · rw [if_neg hb, Option.map_eq_none_iff] at h
        cases q with
        | zero => exact Bool.eq_false_iff.mpr hb
        | succ q => exact ih h q

/-- **The search finds the first place from its start on.** -/
theorem findFrom_eq_some (h : findFrom same needle text start = some p) :
    start ≤ p ∧ standsAt same needle text p = true ∧
      ∀ q, start ≤ q → q < p → standsAt same needle text q = false := by
  rw [findFrom] at h
  by_cases hstop : needle = [] ∨ text.length ≤ start
  · rw [if_pos hstop] at h
    exact absurd h (by simp)
  · rw [if_neg hstop, Option.map_eq_some_iff] at h
    obtain ⟨k, hk, rfl⟩ := h
    obtain ⟨hhere, hfirst⟩ := firstPlace_eq_some hk
    rw [standsAt, List.drop_drop, Nat.add_comm] at hhere
    refine ⟨Nat.le_add_left _ _, hhere, fun q hq hlt => ?_⟩
    have hnot := hfirst (q - start) (by omega)
    rwa [standsAt, List.drop_drop, Nat.add_sub_cancel' hq] at hnot

theorem findFrom_eq_none (hne : needle ≠ []) (h : findFrom same needle text start = none) {q : ℕ}
    (hq : start ≤ q) : standsAt same needle text q = false := by
  rw [findFrom] at h
  by_cases hstop : needle = [] ∨ text.length ≤ start
  · have hend := hstop.resolve_left hne
    refine Bool.eq_false_iff.mpr fun hstands => ?_
    have hlt := (standsAt_bound hne hstands).2
    omega
  · rw [if_neg hstop, Option.map_eq_none_iff] at h
    have hnot := firstPlace_eq_none hne h (q - start)
    rwa [standsAt, List.drop_drop, Nat.add_sub_cancel' hq] at hnot

section

variable (same needle text)

/-- The places that a search finds which goes on behind each of them. -/
def places (start : ℕ) : List ℕ :=
  match _h : findFrom same needle text start with
  | none => []
  | some p => p :: places (p + needle.length)
termination_by text.length - start
decreasing_by
  obtain ⟨hstart, hstop, hne⟩ := findFrom_bound _h
  have hpos := List.length_pos_of_ne_nil hne
  omega

end

theorem places_of_none (h : findFrom same needle text start = none) :
    places same needle text start = [] := by
  rw [places]
  split
  · rfl
  · next p hp => exact absurd (h.symm.trans hp) (by simp)

theorem places_of_some (h : findFrom same needle text start = some p) :
    places same needle text start = p :: places same needle text (p + needle.length) := by
  rw [places]
  split
  · next hnone => exact absurd (h.symm.trans hnone) (by simp)
  · next q hq => rw [Option.some.inj (hq.symm.trans h)]

theorem mem_places (h : p ∈ places same needle text start) :
    start ≤ p ∧ standsAt same needle text p = true := by
  fun_induction places same needle text start with
  | case1 start hnone => exact absurd h (by simp)
  | case2 start q hq ih =>
      have hfound := findFrom_eq_some hq
      rcases List.mem_cons.mp h with rfl | h
      · exact ⟨hfound.1, hfound.2.1⟩
      · exact ⟨by have := (ih h).1; omega, (ih h).2⟩

theorem places_nodup (hne : needle ≠ []) (start : ℕ) : (places same needle text start).Nodup := by
  fun_induction places same needle text start with
  | case1 start hnone => exact List.nodup_nil
  | case2 start q hq ih =>
      refine List.nodup_cons.mpr ⟨fun hmem => ?_, ih⟩
      have hlater := (mem_places hmem).1
      have hpos := List.length_pos_iff.mpr hne
      omega

/-- **A place that the search passes over overlaps one that it found.** -/
theorem place_or_overlap (hne : needle ≠ []) {q : ℕ} (hstart : start ≤ q)
    (hq : standsAt same needle text q = true) :
    q ∈ places same needle text start ∨
      ∃ p ∈ places same needle text start, p < q ∧ q < p + needle.length := by
  fun_induction places same needle text start with
  | case1 start hnone =>
      rw [findFrom_eq_none hne hnone hstart] at hq
      exact absurd hq Bool.false_ne_true
  | case2 start p hp ih =>
      have hfound := findFrom_eq_some hp
      by_cases hbefore : q < p
      · rw [hfound.2.2 q hstart hbefore] at hq
        exact absurd hq Bool.false_ne_true
      · by_cases hover : q < p + needle.length
        · by_cases heq : q = p
          · exact Or.inl (heq ▸ List.mem_cons_self)
          · exact Or.inr ⟨p, List.mem_cons_self, by omega, hover⟩
        · rcases ih (by omega) with hmem | ⟨r, hr, hoverlap⟩
          · exact Or.inl (List.mem_cons_of_mem p hmem)
          · exact Or.inr ⟨r, List.mem_cons_of_mem p hr, hoverlap⟩

end TextSearch
