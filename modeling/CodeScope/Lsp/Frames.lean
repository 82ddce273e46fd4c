import CodeScope.Lsp.Framing

/-! # Streams of LSP frames

A server sends frames: a header block and, when the block has a positive length, that many bytes. The
reader takes the block's length from the first `Content-Length:` in it. Here that is compared with
what the frames say, for every stream and every way it is cut into chunks. -/

namespace CodeScope.Lsp

open Text (Str str)
open TextSearch CNumbers

/-! ## Frames -/

/-- A `Content-Length` line: a decimal number with blanks around it. -/
structure LengthField where
  front : Str
  negative : Bool
  digits : Str
  back : Str
  front_blank : ∀ c ∈ front, c = ' ' ∨ c = '\t'
  digits_ne : digits ≠ []
  digits_decimal : ∀ c ∈ digits, c.isDigit = true
  back_blank : ∀ c ∈ back, c = ' ' ∨ c = '\t'

def LengthField.text (f : LengthField) : Str :=
  lengthName ++ f.front ++ (if f.negative then ['-'] else []) ++ f.digits ++ f.back

def LengthField.value (f : LengthField) : ℤ :=
  if f.negative then -(decimal f.digits : ℤ) else decimal f.digits

/-- Any other line of a header block. -/
structure HeaderLine where
  text : Str
  ne_nil : text ≠ []
  no_cr : '\r' ∉ text
  no_lf : '\n' ∉ text
  other : ¬ lengthName <+: text

/-- A header block: its `Content-Length` line, if it has one, among other lines in any order. -/
structure HeaderBlock where
  before : List HeaderLine
  field : Option LengthField
  after : List HeaderLine
  ne_nil : before ≠ [] ∨ field ≠ none ∨ after ≠ []

def HeaderBlock.lines (b : HeaderBlock) : List Str :=
  b.before.map HeaderLine.text ++ b.field.toList.map LengthField.text ++
    b.after.map HeaderLine.text

def lineBreak : Str := str "\r\n"

/-- The block up to the two line breaks that end it. -/
def HeaderBlock.text (b : HeaderBlock) : Str := lineBreak.intercalate b.lines

/-- A frame: well-formed with as many bytes as its block says, or an unusable block, whose length is
    absent, zero or negative, without a body. -/
structure Frame where
  header : HeaderBlock
  body : Str
  announced : if body = [] then ∀ f ∈ header.field, f.value ≤ 0
    else ∃ f ∈ header.field, f.value = body.length

def Frame.wire (f : Frame) : Str := f.header.text ++ headerEnd ++ f.body

def wire (frames : List Frame) : Str := frames.flatMap Frame.wire

/-- What a frame delivers. -/
def Frame.bodies (f : Frame) : List Str := if f.body = [] then [] else [f.body]

/-- The bodies of the well-formed frames among those that have arrived completely, when `n` bytes
    have arrived. -/
def arrived : List Frame → ℕ → List Str
  | [], _ => []
  | f :: rest, n => if f.wire.length ≤ n then f.bodies ++ arrived rest (n - f.wire.length) else []

/-- **The stream is delivered**: however its bytes are cut into chunks, once the reader asks for more
    it has handed out the bodies of the well-formed frames that have arrived, in order, and nothing
    else. -/
def Delivered (frames : List Frame) : Prop :=
  ∀ chunks rest, wire frames = chunks.flatten ++ rest →
    (decoder.receive chunks).1 = arrived frames chunks.flatten.length

/-! ## The end of a header block -/

/-- What the proofs use of a line. -/
def PlainLine (l : Str) : Prop := l ≠ [] ∧ '\r' ∉ l ∧ '\n' ∉ l

theorem lengthName_eq : lengthName =
    ['C', 'o', 'n', 't', 'e', 'n', 't', '-', 'L', 'e', 'n', 'g', 't', 'h', ':'] := rfl

theorem lengthName_no_cr : '\r' ∉ lengthName := by
  rw [lengthName_eq]
  decide

theorem lengthName_no_lf : '\n' ∉ lengthName := by
  rw [lengthName_eq]
  decide

theorem LengthField.plain (f : LengthField) : PlainLine f.text := by
  have hchars : ∀ c ∈ f.text, c ≠ '\r' ∧ c ≠ '\n' := by
    intro c hc
    have hblank : ∀ {c : Char}, c = ' ' ∨ c = '\t' → c ≠ '\r' ∧ c ≠ '\n' := by
      rintro c (rfl | rfl) <;> decide
    simp only [LengthField.text, List.mem_append] at hc
    rcases hc with (((hc | hc) | hc) | hc) | hc
    · exact ⟨fun heq => lengthName_no_cr (heq ▸ hc), fun heq => lengthName_no_lf (heq ▸ hc)⟩
    · exact hblank (f.front_blank c hc)
    · split_ifs at hc
      · rw [List.mem_singleton.mp hc]
        decide
      · exact absurd hc List.not_mem_nil
    · have hdigit := f.digits_decimal c hc
      constructor
      · rintro rfl
        exact absurd hdigit (by decide)
      · rintro rfl
        exact absurd hdigit (by decide)
    · exact hblank (f.back_blank c hc)
  have hne : f.text ≠ [] := by
    intro h
    simp only [LengthField.text, List.append_eq_nil_iff] at h
    exact f.digits_ne h.1.2
  exact ⟨hne, fun h => (hchars _ h).1 rfl, fun h => (hchars _ h).2 rfl⟩

theorem HeaderBlock.plain (b : HeaderBlock) : ∀ l ∈ b.lines, PlainLine l := by
  intro l hl
  rw [HeaderBlock.lines, List.mem_append, List.mem_append] at hl
  rcases hl with (hl | hl) | hl
  · obtain ⟨h, -, rfl⟩ := List.mem_map.mp hl
    exact ⟨h.ne_nil, h.no_cr, h.no_lf⟩
  · obtain ⟨f, -, rfl⟩ := List.mem_map.mp hl
    exact f.plain
  · obtain ⟨h, -, rfl⟩ := List.mem_map.mp hl
    exact ⟨h.ne_nil, h.no_cr, h.no_lf⟩

theorem intercalate_cons (l : Str) (rest : List Str) :
    lineBreak.intercalate (l :: rest) =
      l ++ if rest = [] then [] else lineBreak ++ lineBreak.intercalate rest := by
  cases rest with
  | nil => simp [List.intercalate_singleton]
  | cons l' rest => simp [List.intercalate_cons_cons]

theorem not_isPrefix_inside {l t : Str} (hl : '\r' ∉ l) {q : ℕ} (hq : q < l.length) :
    ¬ headerEnd <+: (l ++ t).drop q := by
  rw [List.drop_append_of_le_length hq.le, List.drop_eq_getElem_cons hq, List.cons_append]
  intro h
  have hhead : '\r' = l[q] := (List.cons_prefix_cons.mp h).1
  exact hl (hhead ▸ List.getElem_mem hq)

/-- There are no two line breaks in a row before the end of the lines. -/
theorem headerEnd_not_before {lines : List Str} (hplain : ∀ l ∈ lines, PlainLine l) {q : ℕ}
    (hq : q < (lineBreak.intercalate lines).length) :
    ¬ headerEnd <+: (lineBreak.intercalate lines ++ headerEnd).drop q := by
  induction lines generalizing q with
  | nil => exact absurd hq (Nat.not_lt_zero q)
  | cons l rest ih =>
      obtain ⟨-, hcr, -⟩ := hplain l List.mem_cons_self
      have hrest : ∀ l ∈ rest, PlainLine l := fun l' hl' => hplain l' (List.mem_cons_of_mem l hl')
      rw [intercalate_cons] at hq ⊢
      rw [List.append_assoc]
      by_cases hinside : q < l.length
      · exact not_isPrefix_inside hcr hinside
      · cases rest with
        | nil =>
            rw [if_pos rfl, List.append_nil] at hq
            exact absurd hq hinside
        | cons l' others =>
            rw [if_neg (by simp)] at hq ⊢
            obtain ⟨n, rfl⟩ := Nat.exists_eq_add_of_le (not_lt.mp hinside)
            rw [← List.drop_drop, List.drop_left]
            -- the next line does not begin with the `\r` of an empty line
            obtain ⟨hne, hcr', -⟩ := hrest l' List.mem_cons_self
            match n with
            | 0 =>
                intro h
                rw [intercalate_cons] at h
                cases l' with
                | nil => exact hne rfl
                | cons c l' =>
                    have hthird : '\r' = c := by
                      have h1 := (List.cons_prefix_cons.mp h).2
                      have h2 := (List.cons_prefix_cons.mp h1).2
                      exact (List.cons_prefix_cons.mp h2).1
                    exact hcr' (by rw [hthird]; exact List.mem_cons_self)
            | 1 =>
                intro h
                exact absurd (List.cons_prefix_cons.mp h).1 (by decide)
            | n + 2 =>
                refine ih hrest ?_
                have hbreak : lineBreak.length = 2 := rfl
                simp only [List.length_append, hbreak] at hq
                omega

/-! ## What the reader takes off -/

/-- The number behind the first `Content-Length:` of a header block. -/
def announced (head : Str) : Option ℤ :=
  (find lengthName head).map fun cl_pos =>
    atoi (((head.drop (cl_pos + 15)).dropWhile (· = ' ')).takeWhile fun c => ! isLineEnd c)

theorem find_headerEnd (b : HeaderBlock) : find headerEnd (b.text ++ headerEnd) = some b.text.length := by
  refine (find_eq_some (by decide)).mpr ⟨?_, fun q hq => headerEnd_not_before b.plain hq⟩
  rw [List.drop_left]

/-- **A complete header block is taken for what its first `Content-Length:` announces**, wherever
    that stands; a block without one is waited for. -/
theorem nextUnit_header (b : HeaderBlock) (tail : Str) :
    nextUnit (b.text ++ headerEnd ++ tail) =
      match announced b.text with
      | none => none
      | some length => takeBody length tail := by
  have hend := find_append (by decide) (find_headerEnd b) tail
  have hcons : b.text ++ headerEnd ++ tail = b.text ++ '\r' :: (str "\n\r\n" ++ tail) := by
    rw [List.append_assoc]
    rfl
  have hname : lengthName ≠ [] := by decide
  cases hcl : find lengthName b.text with
  | none =>
      have hbehind : ∀ cl_pos, find lengthName (b.text ++ headerEnd ++ tail) = some cl_pos →
          b.text.length < cl_pos := by
        intro cl_pos hfound
        by_contra hle
        have hhere := ((find_eq_some hname).mp hfound).1
        rw [hcons, List.drop_append_of_le_length (not_lt.mp hle)] at hhere
        exact (find_eq_none hname).mp hcl cl_pos (isPrefix_of_stop lengthName_no_cr hhere)
      have hnone : announced b.text = none := by rw [announced, hcl]; rfl
      rw [hnone, nextUnit, takeNextLspMessage, hend]
      cases hfound : find lengthName (b.text ++ headerEnd ++ tail) with
      | none => rfl
      | some cl_pos => simp only [if_pos (hbehind cl_pos hfound)]
  | some cl_pos =>
      have hlen := ((find_eq_some hname).mp hcl).1.length_le
      have hfifteen : lengthName.length = 15 := rfl
      rw [List.length_drop] at hlen
      have hinside : cl_pos + 15 ≤ b.text.length := by omega
      have hfound : find lengthName (b.text ++ headerEnd ++ tail) = some cl_pos := by
        rw [List.append_assoc]
        exact find_append hname hcl _
      have hsplit : (b.text ++ headerEnd ++ tail).drop (cl_pos + 15) =
          b.text.drop (cl_pos + 15) ++ '\r' :: (str "\n\r\n" ++ tail) := by
        rw [hcons, List.drop_append_of_le_length hinside]
      have hsome : announced b.text = some (atoi (((b.text.drop (cl_pos + 15)).dropWhile
          (· = ' ')).takeWhile fun c => ! isLineEnd c)) := by
        rw [announced, hcl]
        rfl
      have htail : (b.text ++ headerEnd ++ tail).drop (b.text.length + 4) = tail :=
        List.drop_left' (by rw [List.length_append]; rfl)
      rw [hsome, nextUnit_eq hend hfound (by omega) (readLength_of_stop (by decide) hsplit), htail]

variable {part : Str} {frames : List Frame}

/-- A part of a header block is waited for. -/
theorem nextUnit_part {b : HeaderBlock} (hpart : part <+: b.text ++ headerEnd)
    (hshort : part.length < b.text.length + 4) : nextUnit part = none := by
  have hnone : find headerEnd part = none := by
    refine (find_eq_none (by decide)).mpr fun q hq => ?_
    have hlen := hq.length_le
    have hfour : headerEnd.length = 4 := rfl
    rw [List.length_drop] at hlen
    obtain ⟨more, hmore⟩ := hpart
    refine headerEnd_not_before b.plain (q := q) ?_ ?_
    · change q < b.text.length
      omega
    · change headerEnd <+: (b.text ++ headerEnd).drop q
      rw [← hmore, List.drop_append_of_le_length (by omega)]
      exact hq.trans (List.prefix_append _ _)
  rw [nextUnit, takeNextLspMessage, hnone]

/-! ## When a stream is delivered -/

/-- Every frame is taken for what it is: a well-formed frame announces the length of its body, and an
    unusable block announces a length that is not positive. Behind the last well-formed frame a block
    may also announce nothing, or more bytes than follow it. -/
def Deliverable : List Frame → Prop
  | [] => True
  | f :: rest =>
    match announced f.header.text with
    | none => f.body = [] ∧ ∀ g ∈ rest, g.body = []
    | some length =>
      if f.body ≠ [] then length = f.body.length ∧ Deliverable rest
      else if length ≤ 0 then Deliverable rest
      else (∀ g ∈ rest, g.body = []) ∧ ((wire rest).length : ℤ) < length

theorem arrived_eq_nil (h : ∀ g ∈ frames, g.body = []) (n : ℕ) : arrived frames n = [] := by
  induction frames generalizing n with
  | nil => rfl
  | cons f rest ih =>
      have hf : f.bodies = [] := if_pos (h f List.mem_cons_self)
      rw [arrived, hf, ih fun g hg => h g (List.mem_cons_of_mem f hg)]
      split_ifs <;> rfl

theorem Frame.length_wire (f : Frame) :
    f.wire.length = f.header.text.length + 4 + f.body.length := by
  rw [Frame.wire, List.length_append, List.length_append]
  rfl

/-- A body that has arrived is shorter than what has arrived. -/
theorem length_of_arrived {n : ℕ} {body : Str} (h : body ∈ arrived frames n) : body.length < n := by
  induction frames generalizing n with
  | nil => exact absurd h List.not_mem_nil
  | cons f rest ih =>
      rw [arrived] at h
      split_ifs at h with hin
      · rcases List.mem_append.mp h with hf | hrest
        · have hwire := f.length_wire
          unfold Frame.bodies at hf
          split_ifs at hf
          · exact absurd hf List.not_mem_nil
          · rw [List.mem_singleton.mp hf]
            omega
        · have := ih hrest
          omega
      · exact absurd h List.not_mem_nil

/-- What the reader hands out is shorter than what it reads. -/
theorem length_of_drained {buffer body : Str} (h : body ∈ (decoder.drain buffer).1) :
    body.length < buffer.length := by
  induction buffer using StreamDecoder.drain.induct decoder with
  | case1 buffer hnext =>
      rw [StreamDecoder.drain_wait hnext] at h
      exact absurd h List.not_mem_nil
  | case2 buffer unit rest hnext ih =>
      have hshrinks := decoder.shrinks hnext
      rw [StreamDecoder.drain_step hnext] at h
      rcases List.mem_append.mp h with hunit | hrest
      · obtain ⟨header_end, cl_pos, length, hend, -, -, -, hbody⟩ := nextUnit_some hnext
        have hhere := ((find_eq_some (by decide)).mp hend).1.length_le
        have hfour : headerEnd.length = 4 := rfl
        rw [List.length_drop] at hhere
        unfold takeBody at hbody
        split_ifs at hbody
        · rw [← (Prod.mk.inj (Option.some.inj hbody)).1] at hunit
          exact absurd hunit List.not_mem_nil
        · rw [← (Prod.mk.inj (Option.some.inj hbody)).1, Option.toList_some,
            List.mem_singleton] at hunit
          rw [hunit, List.length_take, List.length_drop]
          omega
      · exact (ih hrest).trans hshrinks

theorem drain_header {b : HeaderBlock} {tail : Str} :
    decoder.drain (b.text ++ headerEnd ++ tail) =
      match (announced b.text).bind (takeBody · tail) with
      | none => ([], b.text ++ headerEnd ++ tail)
      | some (unit, rest) => (unit.toList ++ (decoder.drain rest).1, (decoder.drain rest).2) := by
  have hnext : decoder.next (b.text ++ headerEnd ++ tail) =
      (announced b.text).bind (takeBody · tail) := by
    change nextUnit _ = _
    rw [nextUnit_header]
    cases announced b.text <;> rfl
  cases hstep : (announced b.text).bind (takeBody · tail) with
  | none => exact StreamDecoder.drain_wait (hnext.trans hstep)
  | some step => exact StreamDecoder.drain_step (hnext.trans hstep)

theorem split_part {front back : Str} (h : part <+: front ++ back)
    (hlen : front.length ≤ part.length) : ∃ tail, part = front ++ tail ∧ tail <+: back := by
  obtain ⟨tail, rfl⟩ := List.prefix_of_prefix_length_le (List.prefix_append front back) h hlen
  exact ⟨tail, rfl, (List.prefix_append_right_inj front).mp h⟩

/-- A part of a frame that is taken for what it is, is waited for. -/
theorem drain_part {f : Frame} (hpart : part <+: f.wire) (hshort : part.length < f.wire.length)
    (hlength : ∀ length ∈ announced f.header.text, f.body ≠ [] → length = f.body.length) :
    decoder.drain part = ([], part) := by
  have hwire := f.length_wire
  by_cases hin : part.length < f.header.text.length + 4
  · have hhead : part <+: f.header.text ++ headerEnd := by
      refine List.prefix_of_prefix_length_le hpart (List.prefix_append _ f.body) ?_
      rw [List.length_append]
      exact hin.le
    exact StreamDecoder.drain_wait (nextUnit_part hhead hin)
  · obtain ⟨tail, rfl, htail⟩ := split_part hpart (by rw [List.length_append]; exact not_lt.mp hin)
    have htailShort : tail.length < f.body.length := by
      simp only [Frame.wire, List.length_append] at hshort
      omega
    have hbody : f.body ≠ [] := by
      intro heq
      rw [heq] at htailShort
      exact absurd htailShort (Nat.not_lt_zero _)
    rw [drain_header]
    cases ha : announced f.header.text with
    | none => rfl
    | some length =>
        have hlen := hlength length ha hbody
        have hwait : takeBody length tail = none := by
          rw [takeBody, if_neg (by omega), if_pos (by omega)]
        simp only [Option.bind_some, hwait]

theorem drain_wire (f : Frame) (tail : Str) :
    (decoder.drain (f.wire ++ tail)).1 =
      match (announced f.header.text).bind (takeBody · (f.body ++ tail)) with
      | none => []
      | some (unit, rest) => unit.toList ++ (decoder.drain rest).1 := by
  rw [Frame.wire, List.append_assoc, drain_header]
  cases (announced f.header.text).bind (takeBody · (f.body ++ tail)) <;> rfl

theorem drain_body {f : Frame} (hbody : f.body ≠ [])
    (hlength : announced f.header.text = some (f.body.length : ℤ)) (tail : Str) :
    (decoder.drain (f.wire ++ tail)).1 = f.bodies ++ (decoder.drain tail).1 := by
  have hpos := List.length_pos_iff.mpr hbody
  have htake : takeBody f.body.length (f.body ++ tail) = some (some f.body, tail) := by
    rw [takeBody, if_neg (by omega), if_neg (by rw [List.length_append]; omega), Int.toNat_natCast,
      List.take_left, List.drop_left]
  rw [drain_wire, hlength, Option.bind_some, htake, Frame.bodies, if_neg hbody]
  rfl

theorem drain_skipped {f : Frame} (hbody : f.body = []) {length : ℤ}
    (hlength : announced f.header.text = some length) (hzero : length ≤ 0) (tail : Str) :
    (decoder.drain (f.wire ++ tail)).1 = f.bodies ++ (decoder.drain tail).1 := by
  have htake : takeBody length (f.body ++ tail) = some (none, tail) := by
    rw [takeBody, if_pos hzero, hbody]
    rfl
  rw [drain_wire, hlength, Option.bind_some, htake, Frame.bodies, if_pos hbody]
  rfl

theorem arrived_cons_append (f : Frame) (rest : List Frame) (tail : Str) :
    arrived (f :: rest) (f.wire ++ tail).length = f.bodies ++ arrived rest tail.length := by
  rw [arrived, if_pos (by rw [List.length_append]; omega), List.length_append,
    Nat.add_sub_cancel_left]

theorem drain_of_deliverable (h : Deliverable frames) (hpart : part <+: wire frames) :
    (decoder.drain part).1 = arrived frames part.length := by
  induction frames generalizing part with
  | nil =>
      have hnil : part = [] := List.prefix_nil.mp hpart
      rw [hnil, StreamDecoder.drain_nil]
      rfl
  | cons f rest ih =>
      have hcons : wire (f :: rest) = f.wire ++ wire rest := rfl
      rw [hcons] at hpart
      by_cases hlen : part.length < f.wire.length
      · have hfront := List.prefix_of_prefix_length_le hpart (List.prefix_append _ _) hlen.le
        rw [drain_part hfront hlen, arrived, if_neg (not_le.mpr hlen)]
        intro length ha hbody
        rw [Deliverable, ha] at h
        simp only [if_pos hbody] at h
        exact h.1
      · obtain ⟨tail, rfl, htail⟩ := split_part hpart (not_lt.mp hlen)
        rw [arrived_cons_append]
        cases ha : announced f.header.text with
        | none =>
            simp only [Deliverable, ha] at h
            rw [drain_wire, ha, arrived_eq_nil h.2, Frame.bodies, if_pos h.1]
            rfl
        | some length =>
            simp only [Deliverable, ha] at h
            split_ifs at h with hbody hzero
            · rw [h.1] at ha
              rw [drain_body hbody ha, ih h.2 htail]
            · rw [drain_skipped (not_not.mp hbody) ha hzero, ih h htail]
            · have htailLen := htail.length_le
              have hwait : takeBody length (f.body ++ tail) = none := by
                rw [not_not.mp hbody, List.nil_append, takeBody, if_neg hzero, if_pos (by omega)]
              rw [drain_wire, ha, Option.bind_some, hwait, arrived_eq_nil h.1, Frame.bodies,
                if_pos (not_not.mp hbody)]
              rfl

theorem arrived_zero (frames : List Frame) : arrived frames 0 = [] := by
  cases frames with
  | nil => rfl
  | cons f rest =>
      have hwire := f.length_wire
      rw [arrived, if_neg (by omega)]

theorem arrived_wire (frames : List Frame) :
    arrived frames (wire frames).length = frames.flatMap Frame.bodies := by
  induction frames with
  | nil => rfl
  | cons f rest ih =>
      have hcons : wire (f :: rest) = f.wire ++ wire rest := rfl
      rw [hcons, arrived_cons_append, ih, List.flatMap_cons]

theorem body_eq_nil_of_arrived (h : arrived frames (wire frames).length = []) :
    ∀ f ∈ frames, f.body = [] := by
  intro f hf
  rw [arrived_wire, List.flatMap_eq_nil_iff] at h
  have hnone := h f hf
  unfold Frame.bodies at hnone
  split_ifs at hnone with hbody
  exact hbody

/-- A frame that delivers its body announces its length: otherwise it is skipped, cut short or waited
    for, and what is handed out of the body is shorter. -/
theorem length_of_delivered {f : Frame} {rest : List Frame} {length : ℤ} (hbody : f.body ≠ [])
    (ha : announced f.header.text = some length)
    (h : (decoder.drain (f.wire ++ [])).1 = f.bodies ++ arrived rest ([] : Str).length) :
    length = f.body.length := by
  rw [drain_wire, ha, Option.bind_some, List.append_nil, List.length_nil, arrived_zero,
    List.append_nil, Frame.bodies, if_neg hbody, takeBody] at h
  split_ifs at h with hzero hshort
  · have hmem : f.body ∈ (decoder.drain f.body).1 := by
      have heq : (decoder.drain f.body).1 = [f.body] := h
      rw [heq]
      exact List.mem_singleton_self _
    exact absurd (length_of_drained hmem) (lt_irrefl _)
  · have hhead : f.body.take length.toNat = f.body := by
      simp only [Option.toList_some, List.singleton_append, List.cons.injEq] at h
      exact h.1
    have hlen := congrArg List.length hhead
    rw [List.length_take] at hlen
    omega

theorem deliverable_of_drain
    (h : ∀ part, part <+: wire frames → (decoder.drain part).1 = arrived frames part.length) :
    Deliverable frames := by
  induction frames with
  | nil => trivial
  | cons f rest ih =>
      have hcons : ∀ tail, tail <+: wire rest →
          (decoder.drain (f.wire ++ tail)).1 = f.bodies ++ arrived rest tail.length := by
        intro tail htail
        rw [h _ ((List.prefix_append_right_inj _).mpr htail), arrived_cons_append]
      have hwhole := hcons (wire rest) (List.prefix_refl _)
      cases ha : announced f.header.text with
      | none =>
          rw [drain_wire, ha] at hwhole
          have hnone : arrived (f :: rest) (wire (f :: rest)).length = [] := by
            have hwire : wire (f :: rest) = f.wire ++ wire rest := rfl
            rw [hwire, arrived_cons_append, ← hwhole]
            rfl
          have hall := body_eq_nil_of_arrived hnone
          simp only [Deliverable, ha]
          exact ⟨hall f List.mem_cons_self, fun g hg => hall g (List.mem_cons_of_mem f hg)⟩
      | some length =>
          simp only [Deliverable, ha]
          split_ifs with hbody hzero
          · have hlength := length_of_delivered hbody ha (hcons [] List.nil_prefix)
            refine ⟨hlength, ih fun part hpart => ?_⟩
            have heq := hcons part hpart
            rw [hlength] at ha
            rw [drain_body hbody ha] at heq
            exact List.append_cancel_left heq
          · refine ih fun part hpart => ?_
            have heq := hcons part hpart
            rw [drain_skipped (not_not.mp hbody) ha hzero] at heq
            exact List.append_cancel_left heq
          · have hshort : ((wire rest).length : ℤ) < length := by
              by_contra hlong
              -- the block would take what follows it for its body
              have hlen : ((wire rest).take length.toNat).length = length.toNat :=
                List.length_take_of_le (by omega)
              have htake := hcons ((wire rest).take length.toNat) (List.take_prefix _ _)
              have hstep : takeBody length (f.body ++ (wire rest).take length.toNat) =
                  some (some ((wire rest).take length.toNat), []) := by
                rw [not_not.mp hbody, List.nil_append, takeBody, if_neg hzero,
                  if_neg (by omega), List.take_of_length_le hlen.le,
                  List.drop_of_length_le hlen.le]
              rw [drain_wire, ha, Option.bind_some, hstep, Frame.bodies,
                if_pos (not_not.mp hbody), List.nil_append] at htake
              have hmem : (wire rest).take length.toNat ∈
                  arrived rest ((wire rest).take length.toNat).length := by
                rw [← htake]
                exact List.mem_append_left _ (by simp)
              exact absurd (length_of_arrived hmem) (lt_irrefl _)
            refine ⟨body_eq_nil_of_arrived ?_, hshort⟩
            have hwait : takeBody length (f.body ++ wire rest) = none := by
              rw [not_not.mp hbody, List.nil_append, takeBody, if_neg hzero, if_pos (by omega)]
            rw [drain_wire, ha, Option.bind_some, hwait, Frame.bodies, if_pos (not_not.mp hbody)]
              at hwhole
            exact hwhole.symm

theorem delivered_iff_drain :
    Delivered frames ↔
      ∀ part, part <+: wire frames → (decoder.drain part).1 = arrived frames part.length := by
  constructor
  · rintro h part ⟨rest, hrest⟩
    have hone := h [part] rest (by simp [hrest])
    rw [StreamDecoder.receive_eq] at hone
    simpa using hone
  · intro h chunks rest hwire
    rw [StreamDecoder.receive_eq]
    exact h chunks.flatten ⟨rest, hwire.symm⟩

/-- **When a stream of frames is delivered.** -/
theorem delivered_iff (frames : List Frame) : Delivered frames ↔ Deliverable frames := by
  rw [delivered_iff_drain]
  exact ⟨deliverable_of_drain, fun h part hpart => drain_of_deliverable h hpart⟩

/-! ## A block without a length -/

/-- `Content-Type: utf-8` and nothing else. -/
def typeOnly : Frame where
  header := ⟨[⟨str "Content-Type: utf-8", by decide, by decide, by decide, by decide⟩], none, [],
    by decide⟩
  body := []
  announced := by simp

/-- A well-formed frame with the body `ok`. -/
def okFrame : Frame where
  header := ⟨[], some ⟨[' '], false, ['2'], [], by simp, by simp, by simp, by simp⟩, [],
    by decide⟩
  body := str "ok"
  announced := ⟨_, rfl, by decide⟩

/-- The complete message behind the block is waited for. -/
theorem block_without_length_stalls : ¬ Delivered [typeOnly, okFrame] := by
  intro h
  have hdeliverable := deliverable_of_drain (delivered_iff_drain.mp h)
  have hnone : announced typeOnly.header.text = none := by decide
  simp only [Deliverable, hnone] at hdeliverable
  exact absurd (hdeliverable.2 okFrame (by simp)) (by decide)

end CodeScope.Lsp
