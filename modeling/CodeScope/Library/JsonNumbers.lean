import CodeScope.Library.JsonSyntax

/-! # Reading a number

The C library reads a decimal number from the front of a text: a minus, digits with a point among
them, and an exponent when digits follow its mark. What it reads is the longest number there; a
number by itself is read as a whole, so no text is written by two numbers. -/

namespace JsonSyntax

open JsonText

/-! ## The reader -/

/-- A minus, if there is one. -/
def readMinus : Bytes → Bool × Bytes
  | [] => (false, [])
  | c :: rest => if c = minus then (true, rest) else (false, c :: rest)

/-- A point and the digits behind it. -/
def readFraction : Bytes → Option Bytes × Bytes
  | [] => (none, [])
  | c :: rest =>
    if c = dot then (some (rest.takeWhile isDigit), rest.dropWhile isDigit) else (none, c :: rest)

/-- The sign of an exponent. -/
def readSign : Bytes → Bytes × Bytes
  | [] => ([], [])
  | c :: rest => if c = plus || c = minus then ([c], rest) else ([], c :: rest)

/-- An exponent; a mark without digits is none. -/
def readExponent : Bytes → Option (UInt8 × Bytes × Bytes) × Bytes
  | [] => (none, [])
  | c :: rest =>
    if isExponentMark c then
      let (sg, s) := readSign rest
      if s.takeWhile isDigit = [] then (none, c :: rest)
      else (some (c, sg, s.takeWhile isDigit), s.dropWhile isDigit)
    else (none, c :: rest)

/-- The number at the front of a text, and the text behind it. -/
def readNumber (s : Bytes) : Option (NumberText × Bytes) :=
  let (negative, s) := readMinus s
  let whole := s.takeWhile isDigit
  let (fraction, s) := readFraction (s.dropWhile isDigit)
  if whole = [] ∧ fraction.getD [] = [] then none
  else
    let (exponent, s) := readExponent s
    some (⟨negative, whole, fraction, exponent⟩, s)

/-! ## Numbers are read -/

/-- No digit comes first. -/
def NoDigit (r : Bytes) : Prop := ∀ c, r.head? = some c → isDigit c = false

theorem digits_split {ds r : Bytes} (h : ∀ c ∈ ds, isDigit c = true) (hr : NoDigit r) :
    (ds ++ r).takeWhile isDigit = ds ∧ (ds ++ r).dropWhile isDigit = r := by
  rw [List.takeWhile_append_of_pos h, List.dropWhile_append_of_pos h]
  cases r with
  | nil => exact ⟨List.append_nil ds, rfl⟩
  | cons c r =>
      have hc : ¬ isDigit c = true := by simp [hr c rfl]
      rw [List.takeWhile_cons_of_neg hc, List.dropWhile_cons_of_neg hc, List.append_nil]
      exact ⟨rfl, rfl⟩

variable {e : Option (UInt8 × Bytes × Bytes)}

theorem noDigit_exponent (h : NumberText.ExponentFits e) : NoDigit (NumberText.exponentText e) := by
  intro c hc
  cases e with
  | none => cases hc
  | some parts =>
      obtain rfl : parts.1 = c := Option.some.inj hc
      have hmark := h.1
      simp only [isExponentMark, Bool.or_eq_true, decide_eq_true_iff] at hmark
      rcases hmark with hmark | hmark <;> rw [hmark] <;> rfl

theorem noDigit_fraction {f : Option Bytes} {r : Bytes} (hr : NoDigit r) :
    NoDigit (NumberText.fractionText f ++ r) := by
  cases f with
  | none => exact hr
  | some ds =>
      intro c hc
      obtain rfl : dot = c := Option.some.inj hc
      rfl

theorem readExponent_text (h : NumberText.ExponentFits e) :
    readExponent (NumberText.exponentText e) = (e, []) := by
  rcases e with - | ⟨mark, sg, ds⟩
  · rfl
  obtain ⟨hmark, hsign, hne, hdigits⟩ := h
  have hread : readSign (sg ++ ds) = (sg, ds) := by
    rcases hsign with rfl | rfl | rfl
    · obtain ⟨d, ds, rfl⟩ := List.exists_cons_of_ne_nil hne
      have hd : ¬ (d = plus || d = minus) = true := by
        have hdigit := hdigits d List.mem_cons_self
        simp only [Bool.or_eq_true, decide_eq_true_iff]
        rintro (rfl | rfl) <;> exact absurd hdigit (by decide)
      exact if_neg hd
    · rfl
    · rfl
  have htake : ds.takeWhile isDigit = ds := List.takeWhile_eq_self_iff.mpr hdigits
  have hdrop : ds.dropWhile isDigit = [] := List.dropWhile_eq_nil_iff.mpr hdigits
  simp only [NumberText.exponentText, readExponent, hmark, if_true, hread, htake, hdrop, hne,
    if_false]

theorem readFraction_text {f : Option Bytes} (hf : ∀ c ∈ f.getD [], isDigit c = true)
    (he : NumberText.ExponentFits e) :
    readFraction (NumberText.fractionText f ++ NumberText.exponentText e) =
      (f, NumberText.exponentText e) := by
  cases f with
  | some ds =>
      obtain ⟨htake, hdrop⟩ := digits_split hf (noDigit_exponent he)
      simp only [NumberText.fractionText, List.cons_append, readFraction, if_true]
      exact Prod.ext (congrArg some htake) hdrop
  | none =>
      rcases e with - | ⟨mark, sg, ds⟩
      · rfl
      · have hmark : mark ≠ dot := by
          rintro rfl
          exact absurd he.1 (by decide)
        exact if_neg hmark

theorem readMinus_text {n : NumberText} (h : n.Fits) :
    readMinus n.text = (n.negative, n.whole ++ (NumberText.fractionText n.fraction ++
      NumberText.exponentText n.exponent)) := by
  cases hneg : n.negative with
  | true =>
      rw [NumberText.text, hneg]
      rfl
  | false =>
      rw [NumberText.text, hneg, if_neg Bool.false_ne_true, List.nil_append]
      have hhead : ∀ c s, n.whole ++ (NumberText.fractionText n.fraction ++
          NumberText.exponentText n.exponent) = c :: s → c ≠ minus := by
        intro c s hcons
        cases hwhole : n.whole with
        | cons d ds =>
            rw [hwhole] at hcons
            have hd := h.whole d (by rw [hwhole]; exact List.mem_cons_self)
            rw [← (List.cons.inj hcons).1]
            rintro rfl
            exact absurd hd (by decide)
        | nil =>
            cases hf : n.fraction with
            | some fs =>
                rw [hwhole, hf] at hcons
                rw [← (List.cons.inj hcons).1]
                decide
            | none => exact absurd (by rw [hwhole, hf]; rfl) h.some_digit
      cases hcons : n.whole ++ (NumberText.fractionText n.fraction ++
          NumberText.exponentText n.exponent) with
      | nil => rfl
      | cons c s => exact if_neg (hhead c s hcons)

/-- **A number by itself is read as a whole.** -/
theorem readNumber_text {n : NumberText} (h : n.Fits) : readNumber n.text = some (n, []) := by
  obtain ⟨htake, hdrop⟩ := digits_split h.whole
    (noDigit_fraction (f := n.fraction) (noDigit_exponent h.exponent))
  have hsome : ¬ (n.whole = [] ∧ n.fraction.getD [] = []) := by
    rintro ⟨hwhole, hfraction⟩
    exact h.some_digit (by rw [hwhole, hfraction]; rfl)
  unfold readNumber
  rw [readMinus_text h]
  dsimp only
  rw [htake, hdrop, readFraction_text h.fraction h.exponent]
  dsimp only
  rw [if_neg hsome, readExponent_text h.exponent]

theorem number_text_injective {n n' : NumberText} (h : n.Fits) (h' : n'.Fits)
    (heq : n.text = n'.text) : n = n' := by
  have hread := readNumber_text h
  rw [heq, readNumber_text h'] at hread
  exact (Prod.ext_iff.mp (Option.some.inj hread)).1.symm

end JsonSyntax
