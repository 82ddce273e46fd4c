import CodeScope.Library.CNumbers
import CodeScope.Library.StreamDecoder
import CodeScope.Library.TextSearch

/-! # LSP framing

A message is framed by a header block with its `Content-Length` and an empty line.
`takeNextLspMessage` takes one message or one unusable header block off the buffer, or asks for more.
A character of the model stands for one byte. -/

namespace CodeScope.Lsp

open Text (Str str)
open TextSearch CNumbers

def headerEnd : Str := str "\r\n\r\n"

def lengthName : Str := str "Content-Length:"

/-- The result of one attempt: a complete message with the buffer behind it, no complete message, or
    the buffer behind a frame that was discarded. -/
inductive LspFraming where
  | message (body rest : Str)
  | needMore
  | skipped (rest : Str)
deriving DecidableEq

def isLineEnd (c : Char) : Bool := c = '\r' || c = '\n'

/-- The number behind the `Content-Length:` at `cl_pos`, up to the end of the line. -/
def readLength (buffer : Str) (cl_pos : ℕ) : Option ℤ :=
  let val_start := skipWhile (· = ' ') buffer (cl_pos + 15)
  match findFirst isLineEnd buffer val_start with
  | none => none
  | some val_end => some (atoi ((buffer.drop val_start).take (val_end - val_start)))

def takeNextLspMessage (buffer : Str) : LspFraming :=
  match find headerEnd buffer with
  | none => .needMore
  | some header_end =>
    match find lengthName buffer with
    | none => .needMore
    | some cl_pos =>
      if header_end < cl_pos then .needMore
      else
        match readLength buffer cl_pos with
        | none => .needMore
        | some content_length =>
          let body_start := header_end + 4
          if content_length ≤ 0 then .skipped (buffer.drop body_start)
          else if buffer.length < body_start + content_length.toNat then .needMore
          else .message ((buffer.drop body_start).take content_length.toNat)
            (buffer.drop (body_start + content_length.toNat))

def wrapLspFramed (body : Str) : Str :=
  lengthName ++ [' '] ++ (toString body.length).toList ++ headerEnd ++ body

/-! ## The decoder -/

/-- A step of the caller's loop over its buffer. -/
def nextUnit (buffer : Str) : Option (Option Str × Str) :=
  match takeNextLspMessage buffer with
  | .message body rest => some (some body, rest)
  | .needMore => none
  | .skipped rest => some (none, rest)

/-- Behind the header block: what becomes of a buffer whose block announces a length. -/
def takeBody (length : ℤ) (tail : Str) : Option (Option Str × Str) :=
  if length ≤ 0 then some (none, tail)
  else if tail.length < length.toNat then none
  else some (some (tail.take length.toNat), tail.drop length.toNat)

variable {buffer rest : Str} {cl_pos : ℕ} {length : ℤ} {unit : Option Str}

/-- The length that the first `Content-Length:` of the buffer announces for its first header
    block. -/
theorem nextUnit_eq {header_end : ℕ} (hend : find headerEnd buffer = some header_end)
    (hcl : find lengthName buffer = some cl_pos) (hle : cl_pos ≤ header_end)
    (hlength : readLength buffer cl_pos = some length) :
    nextUnit buffer = takeBody length (buffer.drop (header_end + 4)) := by
  have hshort : buffer.length < header_end + 4 + length.toNat ↔
      (buffer.drop (header_end + 4)).length < length.toNat := by
    have hhere := ((find_eq_some (by decide)).mp hend).1.length_le
    have hfour : headerEnd.length = 4 := rfl
    rw [List.length_drop] at hhere ⊢
    omega
  simp only [nextUnit, takeNextLspMessage, hend, hcl, if_neg (not_lt.mpr hle), hlength, takeBody,
    hshort]
  split_ifs
  · rfl
  · rfl
  · simp only [List.drop_drop]

/-- What a step found in the buffer. -/
theorem nextUnit_some (h : nextUnit buffer = some (unit, rest)) :
    ∃ header_end cl_pos length, find headerEnd buffer = some header_end ∧
      find lengthName buffer = some cl_pos ∧ cl_pos ≤ header_end ∧
      readLength buffer cl_pos = some length ∧
      takeBody length (buffer.drop (header_end + 4)) = some (unit, rest) := by
  cases hend : find headerEnd buffer with
  | none => simp [nextUnit, takeNextLspMessage, hend] at h
  | some header_end =>
      cases hcl : find lengthName buffer with
      | none => simp [nextUnit, takeNextLspMessage, hend, hcl] at h
      | some cl_pos =>
          by_cases hbehind : header_end < cl_pos
          · simp [nextUnit, takeNextLspMessage, hend, hcl, hbehind] at h
          · cases hlength : readLength buffer cl_pos with
            | none => simp [nextUnit, takeNextLspMessage, hend, hcl, hbehind, hlength] at h
            | some length =>
                rw [nextUnit_eq hend hcl (not_lt.mp hbehind) hlength] at h
                exact ⟨header_end, cl_pos, length, rfl, rfl, not_lt.mp hbehind, hlength, h⟩

theorem takeBody_length {tail : Str} (h : takeBody length tail = some (unit, rest)) :
    rest.length ≤ tail.length := by
  unfold takeBody at h
  split_ifs at h
  · obtain ⟨-, rfl⟩ := Prod.mk.inj (Option.some.inj h)
    exact le_refl _
  · obtain ⟨-, rfl⟩ := Prod.mk.inj (Option.some.inj h)
    rw [List.length_drop]
    omega

theorem takeBody_append {tail : Str} (h : takeBody length tail = some (unit, rest)) (more : Str) :
    takeBody length (tail ++ more) = some (unit, rest ++ more) := by
  unfold takeBody at h ⊢
  split_ifs at h with hzero hshort
  · obtain ⟨rfl, rfl⟩ := Prod.mk.inj (Option.some.inj h)
    rw [if_pos hzero]
  · obtain ⟨rfl, rfl⟩ := Prod.mk.inj (Option.some.inj h)
    have hlen : length.toNat ≤ tail.length := not_lt.mp hshort
    rw [if_neg hzero, if_neg (by rw [List.length_append]; omega),
      List.take_append_of_le_length hlen, List.drop_append_of_le_length hlen]

/-! ### The number of a header -/

theorem isLineEnd_ne_space {c : Char} (h : isLineEnd c = true) : decide (c = ' ') = false := by
  rw [decide_eq_false_iff_not]
  rintro rfl
  exact absurd h (by decide)

/-- The number ends with the line. -/
theorem readLength_of_stop {front tail : Str} {c : Char} (hc : isLineEnd c = true)
    (h : buffer.drop (cl_pos + 15) = front ++ c :: tail) :
    readLength buffer cl_pos =
      some (atoi ((front.dropWhile (· = ' ')).takeWhile fun c => ! isLineEnd c)) := by
  have hdrop := skipWhile_stop (q := fun x => decide (x = ' ')) (isLineEnd_ne_space hc) h
  have hword := takeWhile_stop (q := fun c => ! isLineEnd c) (c := c) (by simp [hc])
    (front.dropWhile (· = ' ')) tail
  have hend : skipWhile (fun c => ! isLineEnd c) buffer
      (skipWhile (· = ' ') buffer (cl_pos + 15)) =
        skipWhile (· = ' ') buffer (cl_pos + 15) +
          ((front.dropWhile (· = ' ')).takeWhile fun c => ! isLineEnd c).length := by
    rw [skipWhile, hdrop, hword]
  have hle := (List.takeWhile_prefix (l := front.dropWhile (· = ' '))
    fun c => ! isLineEnd c).length_le
  have hlen := congrArg List.length hdrop
  rw [List.length_drop, List.length_append, List.length_cons] at hlen
  have hinside : skipWhile (fun c => ! isLineEnd c) buffer
      (skipWhile (· = ' ') buffer (cl_pos + 15)) < buffer.length := by
    omega
  unfold readLength findFirst
  dsimp only
  rw [if_pos hinside, hend]
  dsimp only
  rw [Nat.add_sub_cancel_left, hdrop, List.take_append_of_le_length hle,
    ← List.prefix_iff_eq_take.mp (List.takeWhile_prefix _)]

theorem stop_of_readLength (h : readLength buffer cl_pos = some length) :
    ∃ front c tail, isLineEnd c = true ∧ buffer.drop (cl_pos + 15) = front ++ c :: tail := by
  by_contra hnone
  have hplain : ∀ c ∈ buffer.drop (cl_pos + 15), (! isLineEnd c) = true := by
    intro c hmem
    by_contra hc
    obtain ⟨front, tail, hsplit⟩ := List.append_of_mem hmem
    exact hnone ⟨front, c, tail, by simpa using hc, hsplit⟩
  have hsuffix : buffer.drop (skipWhile (· = ' ') buffer (cl_pos + 15)) <:+
      buffer.drop (cl_pos + 15) := by
    rw [skipWhile, ← List.drop_drop]
    exact List.drop_suffix _ _
  have hall : (buffer.drop (skipWhile (· = ' ') buffer (cl_pos + 15))).takeWhile
      (fun c => ! isLineEnd c) = buffer.drop (skipWhile (· = ' ') buffer (cl_pos + 15)) :=
    List.takeWhile_eq_self_iff.mpr fun c hc => hplain c (hsuffix.subset hc)
  have hend : ¬ skipWhile (fun c => ! isLineEnd c) buffer
      (skipWhile (· = ' ') buffer (cl_pos + 15)) < buffer.length := by
    rw [skipWhile, hall, List.length_drop]
    omega
  simp [readLength, findFirst, hend] at h

theorem readLength_append (h : readLength buffer cl_pos = some length) (more : Str) :
    readLength (buffer ++ more) cl_pos = some length := by
  obtain ⟨front, c, tail, hc, hsplit⟩ := stop_of_readLength h
  have hlen : cl_pos + 15 ≤ buffer.length := by
    have hsome := congrArg List.length hsplit
    rw [List.length_drop, List.length_append, List.length_cons] at hsome
    omega
  have hmore : (buffer ++ more).drop (cl_pos + 15) = front ++ c :: (tail ++ more) := by
    rw [List.drop_append_of_le_length hlen, hsplit, List.append_assoc, List.cons_append]
  rw [readLength_of_stop hc hmore, ← readLength_of_stop hc hsplit, h]

theorem nextUnit_shrinks (h : nextUnit buffer = some (unit, rest)) :
    rest.length < buffer.length := by
  obtain ⟨header_end, cl_pos, length, hend, -, -, -, hbody⟩ := nextUnit_some h
  have hhere := ((find_eq_some (by decide)).mp hend).1.length_le
  have hfour : headerEnd.length = 4 := rfl
  have hle := takeBody_length hbody
  rw [List.length_drop] at hhere hle
  omega

theorem nextUnit_stable (h : nextUnit buffer = some (unit, rest)) (more : Str) :
    nextUnit (buffer ++ more) = some (unit, rest ++ more) := by
  obtain ⟨header_end, cl_pos, length, hend, hcl, hle, hlength, hbody⟩ := nextUnit_some h
  have hhere := ((find_eq_some (by decide)).mp hend).1.length_le
  have hfour : headerEnd.length = 4 := rfl
  rw [List.length_drop] at hhere
  rw [nextUnit_eq (find_append (by decide) hend more) (find_append (by decide) hcl more) hle
    (readLength_append hlength more), List.drop_append_of_le_length (by omega)]
  exact takeBody_append hbody more

/-- The caller's loop as a decoder. -/
def decoder : StreamDecoder Char Str where
  next := nextUnit
  shrinks := nextUnit_shrinks
  stable h more := nextUnit_stable h more

end CodeScope.Lsp
