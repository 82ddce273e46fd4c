import Mathlib.Data.List.Basic

/-! # Decoders of a stream

A decoder takes one unit off the front of a buffer, a message or something it discards, or waits for
more. When a unit that was complete stays the same with more input behind it, what is decoded does
not depend on how the stream is cut into chunks. -/

/-- A step on a buffer: `none` waits for more input, otherwise the unit and what is left. -/
structure StreamDecoder (α μ : Type) where
  next : List α → Option (Option μ × List α)
  shrinks : ∀ {buffer rest unit}, next buffer = some (unit, rest) → rest.length < buffer.length
  stable : ∀ {buffer rest unit}, next buffer = some (unit, rest) →
    ∀ more, next (buffer ++ more) = some (unit, rest ++ more)

namespace StreamDecoder

variable {α μ : Type} (d : StreamDecoder α μ)

/-- Steps until the decoder waits: the messages, and the buffer it waits with. -/
def drain (buffer : List α) : List μ × List α :=
  match _h : d.next buffer with
  | none => ([], buffer)
  | some (unit, rest) => (unit.toList ++ (drain rest).1, (drain rest).2)
termination_by buffer.length
decreasing_by all_goals exact d.shrinks _h

/-- One chunk arrives behind what is left, and is drained. -/
def feed (state : List μ × List α) (chunk : List α) : List μ × List α :=
  (state.1 ++ (d.drain (state.2 ++ chunk)).1, (d.drain (state.2 ++ chunk)).2)

/-- A stream in chunks. -/
def receive (chunks : List (List α)) : List μ × List α := chunks.foldl d.feed ([], [])

variable {d} {buffer rest : List α} {unit : Option μ}

theorem drain_wait (h : d.next buffer = none) : d.drain buffer = ([], buffer) := by
  rw [drain]
  split
  · rfl
  · rename_i hnext
    exact absurd (h.symm.trans hnext) (by simp)

theorem drain_step (h : d.next buffer = some (unit, rest)) :
    d.drain buffer = (unit.toList ++ (d.drain rest).1, (d.drain rest).2) := by
  rw [drain]
  split
  · rename_i hnext
    exact absurd (h.symm.trans hnext) (by simp)
  · rename_i hnext
    obtain ⟨rfl, rfl⟩ := Prod.mk.inj (Option.some.inj (h.symm.trans hnext))
    rfl

@[simp] theorem drain_nil : d.drain [] = ([], []) := by
  refine drain_wait ?_
  cases hnext : d.next [] with
  | none => rfl
  | some step => exact absurd (d.shrinks hnext) (Nat.not_lt_zero _)

/-- **More input behind a buffer is decoded behind what the buffer leaves.** -/
theorem drain_append (buffer more : List α) :
    d.drain (buffer ++ more) =
      ((d.drain buffer).1 ++ (d.drain ((d.drain buffer).2 ++ more)).1,
        (d.drain ((d.drain buffer).2 ++ more)).2) := by
  induction buffer using drain.induct d with
  | case1 buffer hnext => rw [drain_wait hnext]; rfl
  | case2 buffer unit rest hnext ih =>
      rw [drain_step hnext, drain_step (d.stable hnext more), ih, List.append_assoc]

/-- **What is received does not depend on the chunks.** -/
theorem receive_eq (chunks : List (List α)) : d.receive chunks = d.drain chunks.flatten := by
  have hfeed : ∀ (chunks : List (List α)) (buffer : List α),
      chunks.foldl d.feed (d.drain buffer) = d.drain (buffer ++ chunks.flatten) := by
    intro chunks
    induction chunks with
    | nil => simp
    | cons chunk chunks ih =>
        intro buffer
        rw [List.foldl_cons, List.flatten_cons, ← List.append_assoc, ← ih, drain_append buffer chunk]
        rfl
  rw [receive, ← drain_nil, hfeed, List.nil_append]

end StreamDecoder
