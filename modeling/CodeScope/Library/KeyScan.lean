import CodeScope.Library.JsonText

/-! # Reading JSON by searching for keys

A text is read without a parser: a search for a key in quotes, with its colon, and then for the
next comma or quote. In a JSON text a quote inside a string stands behind a backslash, so that such
a key is found at keys alone (`Inside.not_key`); what is read behind it is as it was written. -/

namespace JsonText

/-! ## Searches -/

/-- The text behind the first place where a key stands. -/
def behind (key : Bytes) : Bytes → Option Bytes
  | [] => none
  | c :: s => if key <+: c :: s then some ((c :: s).drop key.length) else behind key s

/-- The text up to the first byte of this kind, and the text from it on. -/
def splitFirst (c : UInt8) (s : Bytes) : Option (Bytes × Bytes) :=
  if c ∈ s then some (s.takeWhile (· ≠ c), s.dropWhile (· ≠ c)) else none

variable {key s t u : Bytes} {c : UInt8}

theorem behind_skip (h : ¬ key <+: c :: s) : behind key (c :: s) = behind key s := by
  rw [behind, if_neg h]

theorem behind_self (hne : key ≠ []) : behind key (key ++ s) = some s := by
  obtain ⟨c, rest, rfl⟩ := List.exists_cons_of_ne_nil hne
  rw [List.cons_append, behind, ← List.cons_append, if_pos (List.prefix_append _ _),
    List.drop_left]

theorem behind_stretch (hfirst : ∀ d ∈ s, key.head? ≠ some d) (hne : key ≠ []) :
    behind key (s ++ t) = behind key t := by
  induction s with
  | nil => rfl
  | cons d s ih =>
      obtain ⟨c, rest, rfl⟩ := List.exists_cons_of_ne_nil hne
      have hcd : c ≠ d := by
        rintro rfl
        exact hfirst c List.mem_cons_self rfl
      rw [List.cons_append, behind_skip, ih fun d' hd => hfirst d' (List.mem_cons_of_mem d hd)]
      rw [List.cons_prefix_cons]
      exact fun h => hcd h.1

theorem splitFirst_append (h : c ∉ s) : splitFirst c (s ++ c :: t) = some (s, c :: t) := by
  have hall : ∀ d ∈ s, decide (d ≠ c) = true := by
    intro d hd
    exact decide_eq_true fun he => h (he ▸ hd)
  rw [splitFirst, if_pos (by simp), List.takeWhile_append_of_pos hall,
    List.dropWhile_append_of_pos hall, List.takeWhile_cons_of_neg (by simp),
    List.dropWhile_cons_of_neg (by simp), List.append_nil]

theorem takeWhile_append_cons (s t : Bytes) (c : UInt8) :
    (s ++ c :: t).takeWhile (· ≠ c) = s.takeWhile (· ≠ c) := by
  induction s with
  | nil => simp
  | cons d s ih => rw [List.cons_append, List.takeWhile_cons, List.takeWhile_cons, ih]

/-! ## Keys -/

/-- The text of a key and its colon. -/
def keyText (name : Bytes) : Bytes := quote :: (name ++ [quote, colon])

theorem behind_byte {name : Bytes} (h : c ≠ quote) :
    behind (keyText name) (c :: t) = behind (keyText name) t := by
  rw [behind_skip]
  rw [keyText, List.cons_prefix_cons]
  exact fun he => h he.1.symm

theorem behind_comma {name : Bytes} :
    behind (keyText name) (comma :: t) = behind (keyText name) t := behind_byte (by decide)

/-- A name that no escape and no end of a string can be part of. -/
structure PlainName (name : Bytes) : Prop where
  quote : quote ∉ name
  backslash : backslash ∉ name
  comma : comma ∉ name
  colon : colon ∉ name

instance (name : Bytes) : Decidable (PlainName name) :=
  decidable_of_iff (quote ∉ name ∧ backslash ∉ name ∧ comma ∉ name ∧ colon ∉ name)
    ⟨fun h => ⟨h.1, h.2.1, h.2.2.1, h.2.2.2⟩, fun h => ⟨h.quote, h.backslash, h.comma, h.colon⟩⟩

theorem PlainName.tail {a : UInt8} {name : Bytes} (h : PlainName (a :: name)) : PlainName name :=
  ⟨fun hm => h.quote (List.mem_cons_of_mem a hm), fun hm => h.backslash (List.mem_cons_of_mem a hm),
    fun hm => h.comma (List.mem_cons_of_mem a hm), fun hm => h.colon (List.mem_cons_of_mem a hm)⟩

/-- The inside of a string in which every quote stands behind a backslash. -/
inductive Inside : Bytes → Prop where
  | nil : Inside []
  | char {c : UInt8} {s : Bytes} (hquote : c ≠ quote) (rest : Inside s) : Inside (c :: s)
  | escape {s : Bytes} (rest : Inside s) : Inside (backslash :: quote :: s)

variable {name : Bytes}

theorem Inside.append (hs : Inside s) (ht : Inside t) : Inside (s ++ t) := by
  induction hs with
  | nil => exact ht
  | char hquote _ ih => exact .char hquote ih
  | escape _ ih => exact .escape ih

theorem Inside.of_not_mem (h : quote ∉ s) : Inside s := by
  induction s with
  | nil => exact .nil
  | cons c s ih =>
      rw [List.mem_cons, not_or] at h
      exact .char (Ne.symm h.1) (ih h.2)

/-- Neither behind the opening quote of a string nor behind a quote inside it does a key go on. -/
theorem Inside.not_key (hs : Inside s) (hname : PlainName name) :
    ¬ name ++ [quote, colon] <+: s ++ quote :: comma :: t := by
  induction hs generalizing name with
  | nil =>
      rw [List.nil_append]
      cases name with
      | nil =>
          rw [List.nil_append, List.cons_prefix_cons, List.cons_prefix_cons]
          exact fun h => absurd h.2.1 (by decide)
      | cons a name =>
          rw [List.cons_append, List.cons_prefix_cons]
          rintro ⟨rfl, -⟩
          exact hname.quote List.mem_cons_self
  | @char c s hquote _ ih =>
      cases name with
      | nil =>
          rw [List.nil_append, List.cons_append, List.cons_prefix_cons]
          exact fun h => hquote h.1.symm
      | cons a name =>
          rw [List.cons_append, List.cons_append, List.cons_prefix_cons]
          rintro ⟨-, h⟩
          exact ih hname.tail h
  | escape _ _ =>
      cases name with
      | nil =>
          rw [List.nil_append, List.cons_append, List.cons_prefix_cons]
          exact fun h => absurd h.1 (by decide)
      | cons a name =>
          rw [List.cons_append, List.cons_append, List.cons_prefix_cons]
          rintro ⟨rfl, -⟩
          exact hname.backslash List.mem_cons_self

theorem behind_inside (hs : Inside s) (hname : PlainName name) :
    behind (keyText name) (s ++ quote :: comma :: t) = behind (keyText name) (comma :: t) := by
  induction hs with
  | nil =>
      rw [List.nil_append, behind_skip]
      rw [keyText, List.cons_prefix_cons]
      rintro ⟨-, h⟩
      -- Behind the closing quote stands a comma, which the key does not have.
      cases name with
      | nil => exact absurd (List.cons_prefix_cons.mp h).1 (by decide)
      | cons a name =>
          obtain ⟨rfl, -⟩ := List.cons_prefix_cons.mp h
          exact hname.comma List.mem_cons_self
  | char hquote _ ih =>
      rw [List.cons_append, behind_byte hquote, ih]
  | escape hrest ih =>
      rw [List.cons_append, behind_byte (by decide), List.cons_append, behind_skip, ih]
      rw [keyText, List.cons_prefix_cons]
      exact fun h => hrest.not_key hname h.2

/-- **A string is passed over.** -/
theorem behind_string (hs : Inside s) (hname : PlainName name) :
    behind (keyText name) (quote :: (s ++ quote :: comma :: t)) =
      behind (keyText name) (comma :: t) := by
  rw [behind_skip, behind_inside hs hname]
  rw [keyText, List.cons_prefix_cons]
  exact fun h => hs.not_key hname h.2

theorem key_unique {other : Bytes} (hname : quote ∉ name) (hother : quote ∉ other)
    (h : name ++ [quote, colon] <+: other ++ quote :: t) : name = other := by
  obtain ⟨u, hu⟩ := h
  have hfront : ∀ {w : Bytes} (v : Bytes), quote ∉ w →
      (w ++ quote :: v).takeWhile (fun c => decide (c ≠ quote)) = w := by
    intro w v hw
    have hall : ∀ c ∈ w, decide (c ≠ quote) = true :=
      fun c hc => decide_eq_true fun he => hw (he ▸ hc)
    rw [List.takeWhile_append_of_pos hall, List.takeWhile_cons_of_neg (by simp), List.append_nil]
  rw [List.append_assoc, List.cons_append] at hu
  rw [← hfront _ hname, hu, hfront _ hother]

/-- **Another key is passed over.** -/
theorem behind_otherKey {other : Bytes} (hname : PlainName name) (hother : PlainName other)
    (hne : name ≠ other) : behind (keyText name) (keyText other ++ t) = behind (keyText name) t := by
  have hopen : ¬ keyText name <+: keyText other ++ t := by
    simp only [keyText, List.cons_append, List.append_assoc, List.cons_prefix_cons]
    exact fun h => hne (key_unique hname.quote hother.quote h.2)
  have hclose : ¬ keyText name <+: quote :: colon :: t := by
    rw [keyText, List.cons_prefix_cons]
    rintro ⟨-, h⟩
    cases name with
    | nil => exact absurd (List.cons_prefix_cons.mp h).1 (by decide)
    | cons a name =>
        obtain ⟨rfl, -⟩ := List.cons_prefix_cons.mp h
        exact hname.colon List.mem_cons_self
  have hfirst : ∀ d ∈ other, (keyText name).head? ≠ some d := by
    rintro d hd he
    exact hother.quote (Option.some.inj he ▸ hd)
  have htext : keyText other ++ t = quote :: (other ++ quote :: colon :: t) := by simp [keyText]
  rw [htext] at hopen ⊢
  rw [behind_skip hopen, behind_stretch hfirst (List.cons_ne_nil _ _), behind_skip hclose,
    behind_byte (by decide)]

theorem behind_keyText (name s : Bytes) : behind (keyText name) (keyText name ++ s) = some s :=
  behind_self (List.cons_ne_nil _ _)

/-! ## Integers -/

/-- `isspace` of the C locale. -/
def isCSpace (c : UInt8) : Bool := c = 0x20 || (0x09 ≤ c && c ≤ 0x0D)

/-- The integer that a text begins with, behind white space and with a sign. -/
def leadingInteger (s : Bytes) : Option ℤ :=
  let unsigned (t : Bytes) : Option ℤ :=
    if (digits t).1 = [] then none else some (natOf (digits t).1)
  match s.dropWhile isCSpace with
  | [] => none
  | c :: t =>
    if c = minus then (unsigned t).map fun n => -n
    else if c = plus then unsigned t
    else unsigned (c :: t)

/-- `std::stoll`: `none` where it throws. -/
def stoll (s : Bytes) : Option Int64 :=
  match leadingInteger s with
  | none => none
  | some i => if -2 ^ 63 ≤ i ∧ i < 2 ^ 63 then some (Int64.ofInt i) else none

theorem mem_integerText {i : ℤ} (h : c ∈ integerText i) : c = minus ∨ isDigit c = true := by
  unfold integerText at h
  split_ifs at h
  · rcases List.mem_cons.mp h with rfl | h
    · exact Or.inl rfl
    · exact Or.inr (isDigit_of_mem_natText h)
  · exact Or.inr (isDigit_of_mem_natText h)

theorem not_mem_integerText {i : ℤ} (hminus : c ≠ minus) (hdigit : isDigit c = false) :
    c ∉ integerText i := by
  intro h
  rcases mem_integerText h with rfl | h
  · exact hminus rfl
  · rw [hdigit] at h
    exact Bool.noConfusion h

theorem leadingInteger_integerText (i : ℤ) : leadingInteger (integerText i) = some i := by
  have hread : ∀ n, (digits (natText n)).1 = natText n := by
    intro n
    simpa using congrArg Prod.fst (digits_natText (n := n) boundary_nil)
  unfold integerText
  by_cases hneg : i < 0
  · rw [if_pos hneg, leadingInteger, List.dropWhile_cons_of_neg (by decide)]
    simp only [if_true, hread, if_neg (natText_ne_nil _), natOf_natText, Option.map_some]
    congr 1
    omega
  · rw [if_neg hneg]
    obtain ⟨c, more, hcons⟩ := List.exists_cons_of_ne_nil (natText_ne_nil i.natAbs)
    have hdigit : isDigit c = true :=
      isDigit_of_mem_natText (by rw [hcons]; exact List.mem_cons_self)
    have hother : ∀ d : UInt8, isDigit d = false → c ≠ d := by
      rintro d hd rfl
      rw [hd] at hdigit
      exact Bool.noConfusion hdigit
    have hspace : isCSpace c = false := by
      by_contra hs
      rw [Bool.not_eq_false] at hs
      simp only [isCSpace, isDigit, Bool.or_eq_true, Bool.and_eq_true, decide_eq_true_eq,
        UInt8.le_iff_toNat_le, ← UInt8.toNat_inj] at hs hdigit
      simp at hs hdigit
      omega
    rw [leadingInteger, hcons, List.dropWhile_cons_of_neg (by simp [hspace])]
    simp only [if_neg (hother minus rfl), if_neg (hother plus rfl)]
    rw [← hcons, hread, if_neg (natText_ne_nil _), natOf_natText]
    congr 1
    omega

/-- **A number of 64 bits is read back.** -/
theorem stoll_integerText (i : Int64) : stoll (integerText i.toInt) = some i := by
  rw [stoll, leadingInteger_integerText]
  show (if -2 ^ 63 ≤ i.toInt ∧ i.toInt < 2 ^ 63 then some (Int64.ofInt i.toInt) else none) = some i
  rw [if_pos ⟨i.le_toInt, i.toInt_lt⟩, Int64.ofInt_toInt]

end JsonText
