import CodeScope.Mcp.Transport

/-! # Whether the server keeps to the lines of stdin

Reading is local to a line: what `read_message` returns for a line does not depend on what follows
it, and the next line is read from its start. So a stream is in sync exactly when each line is, and
a line can be out of sync in three ways: bytes that are no text end the server, a blank line over
the limit is reported, and what a drain leaves of a longer line is read as a line of its own. -/

namespace CodeScope.Mcp

open Text Lines

variable {V σ : Type} (parse : Str → Except Str (Request V))

/-! ## All reads of a stream -/

/-- The results of `read_message` until the server loop ends, and how it ends. -/
def readAll (s : Bytes) : List (ReadResult V) × Ending :=
  match _hread : readMessage parse s with
  | (none, _) => ([], .failed)
  | (some .eof, _) => ([], .eof)
  | (some (.parseError written), rest) =>
      (.parseError written :: (readAll rest).1, (readAll rest).2)
  | (some (.msg req), rest) => (.msg req :: (readAll rest).1, (readAll rest).2)
termination_by s.length
decreasing_by all_goals exact readMessage_next (by rw [_hread]; rfl)

/-- The reads that follow a result. -/
def readsAfter : Option (ReadResult V) × Bytes → List (ReadResult V) × Ending
  | (none, _) => ([], .failed)
  | (some .eof, _) => ([], .eof)
  | (some (.parseError written), rest) =>
      (.parseError written :: (readAll parse rest).1, (readAll parse rest).2)
  | (some (.msg req), rest) => (.msg req :: (readAll parse rest).1, (readAll parse rest).2)

theorem readAll_eq (s : Bytes) : readAll parse s = readsAfter parse (readMessage parse s) := by
  rw [readAll]
  split <;> rename_i hread <;> rw [hread] <;> rfl

theorem readAll_again {s rest : Bytes} (h : turn parse s = .again rest) :
    readAll parse s = readAll parse rest := by
  have hread : readMessage parse s = readMessage parse rest := by
    rw [readMessage]
    split
    · rename_i rest' hturn
      rw [h] at hturn
      cases hturn
      rfl
    · rename_i hturn
      rw [h] at hturn
      cases hturn
  rw [readAll_eq, readAll_eq, hread]

theorem readAll_done {s rest : Bytes} {result : Option (ReadResult V)}
    (h : turn parse s = .done result rest) :
    readAll parse s = readsAfter parse (result, rest) := by
  have hread : readMessage parse s = (result, rest) := by
    rw [readMessage]
    split
    · rename_i hturn
      rw [h] at hturn
      cases hturn
    · rename_i hturn
      rw [h] at hturn
      cases hturn
      rfl
  rw [readAll_eq, hread]

theorem readAll_nil : readAll parse [] = ([], .eof) := by
  have hturn : turn parse [] = .done (some .eof) [] := by
    simp [turn, readUntil, afterRead, decode_nil]
  rw [readAll_done parse hturn]
  rfl

/-! ## One line after the other -/

/-- The turn of a stream that goes on. -/
def Turn.append (rest : Bytes) : Turn V → Turn V
  | .again r => .again (r ++ rest)
  | .done result r => .done result (r ++ rest)

variable {parse} {l rest : Bytes}

theorem drain_append (hpiece : Piece newline l) (hne : l ≠ [] ∨ rest = [])
    (hend : Ended newline l ∨ rest = []) : drain (l ++ rest) = l.drop maxDrainBytes ++ rest := by
  by_cases hl : l = []
  · subst hl
    rw [hne.resolve_left (fun h => h rfl)]
    rfl
  · rw [drain, readUntil_append hpiece hl hend]

theorem drain_piece (hpiece : Piece newline l) : drain l = l.drop maxDrainBytes := by
  rw [drain, readUntil_piece hpiece]

theorem turn_piece (hpiece : Piece newline l) :
    turn parse l = afterRead parse (l.take (maxLineLen + 1)) (l.drop (maxLineLen + 1)) := by
  rw [turn, readUntil_piece hpiece]

theorem drop_ne_nil (hend : Ended newline l ∨ rest = []) (hne : l ≠ [])
    (h : (l.take (maxLineLen + 1)).getLast? ≠ some newline) :
    l.drop (maxLineLen + 1) ≠ [] ∨ rest = [] := by
  refine hend.imp_left ?_
  intro hended hdrop
  have htake : l.take (maxLineLen + 1) = l :=
    List.take_of_length_le (List.drop_eq_nil_iff.mp hdrop)
  rw [htake] at h
  exact hended.elim hne h

/-- **What a turn makes of a line does not depend on what follows.** -/
theorem turn_append (hpiece : Piece newline l) (hne : l ≠ [])
    (hend : Ended newline l ∨ rest = []) :
    turn parse (l ++ rest) = (turn parse l).append rest := by
  rw [turn_piece hpiece, turn, readUntil_append hpiece hne hend]
  simp only [afterRead]
  cases decode (l.take (maxLineLen + 1)) with
  | none => rfl
  | some text =>
      simp only
      split
      · rfl
      · split
        · rename_i hover
          have hrest := drop_ne_nil hend hne hover.1
          have hdrop := hpiece.drop (maxLineLen + 1)
          have hdrain := drain_append hdrop hrest (hend.imp_left (·.drop _))
          rw [hdrain, drain_piece hdrop]
          rfl
        · simp only [readText]
          split
          · rfl
          · cases parse (trim isWhitespace text) with
            | ok req => rfl
            | error e => rfl

/-- Only the end of the stream reads as such. -/
theorem turn_eof (hpiece : Piece newline l) {next : Bytes}
    (h : turn parse l = .done (some .eof) next) : l = [] := by
  rw [turn_piece hpiece, afterRead] at h
  cases hdecode : decode (l.take (maxLineLen + 1)) with
  | none =>
      rw [hdecode] at h
      cases h
  | some text =>
      rw [hdecode] at h
      simp only at h
      split at h
      · rename_i hempty
        have htake := List.eq_nil_of_length_eq_zero hempty
        exact (List.take_eq_nil_iff.mp htake).resolve_left (Nat.succ_ne_zero _)
      · split at h
        · cases h
        · exact absurd h (readText_ne_eof parse text _ next)

/-- What a turn leaves of a line. -/
theorem turn_next_drop (hpiece : Piece newline l) {next : Bytes}
    (h : (turn parse l).next = some next) : ∃ k, next = l.drop k := by
  rw [turn_piece hpiece] at h
  simp only [afterRead] at h
  cases hdecode : decode (l.take (maxLineLen + 1)) with
  | none =>
      rw [hdecode] at h
      exact absurd h (by simp [Turn.next, nextRead])
  | some text =>
      rw [hdecode] at h
      simp only at h
      split at h
      · exact absurd h (by simp [Turn.next, nextRead])
      · split at h
        · rw [drain_piece (hpiece.drop _), List.drop_drop] at h
          exact ⟨_, (Option.some.inj h).symm⟩
        · rw [readText_next] at h
          exact ⟨_, (Option.some.inj h).symm⟩

/-- One sequence of reads after another, unless the first ended the server. -/
def combine : List (ReadResult V) × Ending → List (ReadResult V) × Ending →
    List (ReadResult V) × Ending
  | (reads, .failed), _ => (reads, .failed)
  | (reads, .eof), (reads', ending) => (reads ++ reads', ending)

/-- **The server reads a line, then the rest of the stream.** -/
theorem readAll_append (hpiece : Piece newline l) (hend : Ended newline l ∨ rest = []) :
    readAll parse (l ++ rest) = combine (readAll parse l) (readAll parse rest) := by
  induction hn : l.length using Nat.strong_induction_on generalizing l with
  | h n ih =>
      by_cases hne : l = []
      · rw [hne, readAll_nil]
        rfl
      · have hlater : ∀ r, (turn parse l).next = some r →
            readAll parse (r ++ rest) = combine (readAll parse r) (readAll parse rest) := by
          intro r hr
          obtain ⟨k, rfl⟩ := turn_next_drop hpiece hr
          exact ih _ (hn ▸ turn_next hr) (hpiece.drop k) (hend.imp_left (·.drop k)) rfl
        have happend : turn parse (l ++ rest) = (turn parse l).append rest :=
          turn_append hpiece hne hend
        cases hturn : turn parse l with
        | again r =>
            rw [hturn] at happend hlater
            rw [readAll_again parse happend, readAll_again parse hturn]
            exact hlater r rfl
        | done result r =>
            rw [hturn] at happend hlater
            rw [readAll_done parse happend, readAll_done parse hturn]
            rcases result with _ | ⟨req⟩ | _ | ⟨written⟩
            · rfl
            · simp only [readsAfter, hlater r rfl]
              rcases readAll parse r with ⟨reads, _ | _⟩ <;> rfl
            · exact absurd (turn_eof hpiece hturn) hne
            · simp only [readsAfter, hlater r rfl]
              rcases readAll parse r with ⟨reads, _ | _⟩ <;> rfl

/-- **The server reads a stream line by line**: what it reads of it is what it reads of each line
    alone, up to the first line that ends it. -/
theorem readAll_lines (parse : Str → Except Str (Request V)) (s : Bytes) :
    readAll parse s = ((lines newline s).map (readAll parse)).foldr combine ([], .eof) := by
  induction hn : s.length using Nat.strong_induction_on generalizing s with
  | h n ih =>
      by_cases hs : s = []
      · rw [hs, readAll_nil]
        rfl
      · obtain ⟨l, rest, rfl, hlines, hne, hpiece, hend⟩ := exists_line newline hs
        have hshorter : rest.length < n := by
          rw [← hn, List.length_append]
          exact Nat.lt_add_of_pos_left (List.length_pos_of_ne_nil hne)
        rw [readAll_append hpiece hend, ih _ hshorter rest rfl, hlines]
        rfl

/-! ## One line -/

/-- A line of at most 1 MiB, its newline not counted. -/
def Short (l : Bytes) : Prop := (payload newline l).length ≤ maxLineLen

/-- A line of white space. -/
def Blank (l : Bytes) : Prop := ∃ text, decode l = some text ∧ trim isWhitespace text = []

instance (l : Bytes) : Decidable (Short l) := inferInstanceAs (Decidable (_ ≤ _))

instance (l : Bytes) : Decidable (Blank l) :=
  match h : decode l with
  | none => isFalse fun ⟨text, htext, _⟩ => by rw [h] at htext; cases htext
  | some text =>
      if hblank : trim isWhitespace text = [] then isTrue ⟨text, h, hblank⟩
      else isFalse fun ⟨text', htext, htrim⟩ => by
        rw [h] at htext
        cases htext
        exact hblank htrim

theorem length_of_last (h : l.getLast? = some newline) :
    l.length = (payload newline l).length + 1 := by
  rw [payload, if_pos h, List.length_dropLast]
  have hpos : 0 < l.length := by
    apply List.length_pos_of_ne_nil
    rintro rfl
    exact absurd h (by simp)
  omega

theorem length_of_not_last (h : l.getLast? ≠ some newline) :
    l.length = (payload newline l).length := by
  rw [payload, if_neg h]

theorem Short.length_le (h : Short l) : l.length ≤ maxLineLen + 1 := by
  by_cases hlast : l.getLast? = some newline
  · rw [length_of_last hlast]
    exact Nat.succ_le_succ h
  · rw [length_of_not_last hlast]
    exact Nat.le_succ_of_le h

/-- A read of a longer line stops at the limit, without a newline. -/
theorem take_of_not_short (hpiece : Piece newline l) (h : ¬ Short l) :
    (l.take (maxLineLen + 1)).getLast? ≠ some newline ∧
      (l.take (maxLineLen + 1)).length = maxLineLen + 1 := by
  have hlength : maxLineLen + 1 ≤ l.length := by
    by_cases hlast : l.getLast? = some newline
    · rw [length_of_last hlast]
      exact Nat.le_succ_of_le (Nat.lt_of_not_le h)
    · rw [length_of_not_last hlast]
      exact Nat.lt_of_not_le h
  refine ⟨?_, List.length_take_of_le hlength⟩
  intro hlast
  by_cases hall : l.length = maxLineLen + 1
  · rw [List.take_of_length_le hall.le] at hlast
    exact h (by
      rw [Short]
      have hpayload := length_of_last hlast
      omega)
  · refine hpiece ?_
    have hmem : newline ∈ l.take (maxLineLen + 1) := List.mem_of_getLast? hlast
    rw [List.dropLast_eq_take]
    have hle : maxLineLen + 1 ≤ l.length - 1 := by omega
    exact (List.take_prefix_take_left hle).subset hmem

/-- A line within the limit, alone on the stream. -/
theorem readAll_short (hne : l ≠ []) (hpiece : Piece newline l) (h : Short l) :
    readAll parse l =
      match decode l with
      | none => ([], .failed)
      | some text =>
          if trim isWhitespace text = [] then ([], .eof)
          else
            match parse (trim isWhitespace text) with
            | .ok req => ([.msg req], .eof)
            | .error e => ([.parseError ⟨e, some (trim isWhitespace text)⟩], .eof) := by
  have hturn : turn parse l = _ := turn_piece hpiece
  rw [List.take_of_length_le h.length_le, List.drop_eq_nil_of_le h.length_le, afterRead] at hturn
  have hfits : ¬ (l.getLast? ≠ some newline ∧ maxLineLen < l.length) := by
    rintro ⟨hlast, hlong⟩
    have hlength := length_of_not_last hlast
    rw [hlength] at hlong
    exact Nat.not_le_of_lt hlong h
  have hpos : l.length ≠ 0 := fun hzero => hne (List.eq_nil_of_length_eq_zero hzero)
  cases hdecode : decode l with
  | none =>
      rw [hdecode] at hturn
      rw [readAll_done parse hturn]
      rfl
  | some text =>
      rw [hdecode] at hturn
      simp only [hpos, hfits, if_false, readText] at hturn ⊢
      by_cases hblank : trim isWhitespace text = []
      · rw [if_pos hblank] at hturn ⊢
        rw [readAll_again parse hturn, readAll_nil]
      · rw [if_neg hblank] at hturn ⊢
        cases hparse : parse (trim isWhitespace text) with
        | ok req | error e =>
            rw [hparse] at hturn
            rw [readAll_done parse hturn]
            simp only [readsAfter, readAll_nil]

/-- A line over the limit, alone on the stream. -/
theorem readAll_long (hpiece : Piece newline l) (h : ¬ Short l) :
    readAll parse l =
      match decode (l.take (maxLineLen + 1)) with
      | none => ([], .failed)
      | some _ =>
          (.parseError overlongReply ::
            (readAll parse (l.drop (maxLineLen + 1 + maxDrainBytes))).1,
            (readAll parse (l.drop (maxLineLen + 1 + maxDrainBytes))).2) := by
  obtain ⟨hlast, hlength⟩ := take_of_not_short hpiece h
  have hturn : turn parse l = _ := turn_piece hpiece
  rw [afterRead] at hturn
  cases hdecode : decode (l.take (maxLineLen + 1)) with
  | none =>
      rw [hdecode] at hturn
      rw [readAll_done parse hturn]
      rfl
  | some text =>
      have hover : (l.take (maxLineLen + 1)).getLast? ≠ some newline ∧
          maxLineLen < (l.take (maxLineLen + 1)).length := ⟨hlast, by omega⟩
      rw [hdecode] at hturn
      simp only at hturn
      rw [if_neg (by omega), if_pos hover, drain_piece (hpiece.drop _), List.drop_drop] at hturn
      rw [readAll_done parse hturn]
      rfl

/-! ## What the lines ask for -/

/-- What a read that returns to the caller amounts to. -/
inductive Outcome (V : Type) where
  | msg (req : Request V)
  | parseError

def ReadResult.outcome : ReadResult V → Option (Outcome V)
  | .msg req => some (.msg req)
  | .parseError _ => some .parseError
  | .eof => none

def outcomes (reads : List (ReadResult V)) : List (Outcome V) := reads.filterMap ReadResult.outcome

def Outcome.request : Outcome V → Option (Request V)
  | .msg req => some req
  | .parseError => none

/-- The id a request is to be answered with. -/
def Request.id : Request V → Option V
  | .standard id _ _ => some id
  | .notification _ _ => none

/-- The id a line on stdout answers. -/
def Message.responseId : Message V → Option V
  | .parseError _ => none
  | .response r => some r.id
  | .oversized id _ => some id

/-- A valid request of at most 1 MiB. -/
def Asks (parse : Str → Except Str (Request V)) (l : Bytes) (req : Request V) : Prop :=
  Short l ∧ ∃ text, decode l = some text ∧ parse (trim isWhitespace text) = .ok req

/-- The outcome of a line that is not blank: the request, or a parse error. -/
def outcomeOf (parse : Str → Except Str (Request V)) (l : Bytes) : Outcome V :=
  if Short l then
    match decode l with
    | none => .parseError
    | some text =>
        match parse (trim isWhitespace text) with
        | .ok req => .msg req
        | .error _ => .parseError
  else .parseError

/-- One outcome per line that is not blank. -/
def expectedOf (parse : Str → Except Str (Request V)) (l : Bytes) : List (Outcome V) :=
  if Blank l then [] else [outcomeOf parse l]

def expected (parse : Str → Except Str (Request V)) (s : Bytes) : List (Outcome V) :=
  (lines newline s).flatMap (expectedOf parse)

/-- What a drain leaves of a line goes unnoticed: nothing, or at most 1 MiB of white space. -/
def Quiet (r : Bytes) : Prop := r = [] ∨ (Short r ∧ Blank r)

/-- A line that the server keeps to: one of at most 1 MiB is UTF-8; of a longer one the first
    `MAX_LINE_LEN + 1` bytes are UTF-8, it is not blank, and what the drain leaves is quiet. -/
def Clean (l : Bytes) : Prop :=
  if Short l then (decode l).isSome = true
  else (decode (l.take (maxLineLen + 1))).isSome = true ∧ ¬ Blank l ∧
    Quiet (l.drop (maxLineLen + 1 + maxDrainBytes))

theorem readAll_quiet_iff (parse : Str → Except Str (Request V)) (hpiece : Piece newline l) :
    (outcomes (readAll parse l).1 = [] ∧ (readAll parse l).2 = .eof) ↔ Quiet l := by
  by_cases hne : l = []
  · subst hne
    rw [readAll_nil]
    exact iff_of_true ⟨rfl, rfl⟩ (Or.inl rfl)
  · by_cases hshort : Short l
    · rw [readAll_short hne hpiece hshort, Quiet, Blank]
      cases hdecode : decode l with
      | none => simp [hne]
      | some text =>
          simp only [hne, hshort, false_or, true_and]
          by_cases hblank : trim isWhitespace text = []
          · simp [hblank, outcomes]
          · rw [if_neg hblank]
            refine iff_of_false ?_ ?_
            · cases parse (trim isWhitespace text) <;> simp [outcomes, ReadResult.outcome]
            · rintro ⟨text', htext, htrim⟩
              cases htext
              exact hblank htrim
    · rw [readAll_long hpiece hshort, Quiet]
      refine iff_of_false ?_ (fun h => h.elim hne (fun h => hshort h.1))
      cases decode (l.take (maxLineLen + 1)) <;> simp [outcomes, ReadResult.outcome]

/-- **A line is read as it should be exactly when it is clean.** -/
theorem readAll_line_iff (parse : Str → Except Str (Request V)) (hne : l ≠ [])
    (hpiece : Piece newline l) :
    (outcomes (readAll parse l).1 = expectedOf parse l ∧ (readAll parse l).2 = .eof) ↔
      Clean l := by
  by_cases hshort : Short l
  · rw [readAll_short hne hpiece hshort, Clean, if_pos hshort, expectedOf, outcomeOf,
      if_pos hshort]
    cases hdecode : decode l with
    | none => simp
    | some text =>
        refine iff_of_true ?_ rfl
        have hblank : Blank l ↔ trim isWhitespace text = [] := by
          rw [Blank, hdecode]
          simp
        simp only [hblank]
        by_cases hwhite : trim isWhitespace text = []
        · rw [if_pos hwhite, if_pos hwhite]
          exact ⟨rfl, rfl⟩
        · rw [if_neg hwhite, if_neg hwhite]
          cases parse (trim isWhitespace text) with
          | ok req => exact ⟨rfl, rfl⟩
          | error e => exact ⟨rfl, rfl⟩
  · rw [readAll_long hpiece hshort, Clean, if_neg hshort, expectedOf, outcomeOf, if_neg hshort,
      ← readAll_quiet_iff parse (hpiece.drop _)]
    cases decode (l.take (maxLineLen + 1)) with
    | none => simp
    | some text =>
        simp only [outcomes, ReadResult.outcome, List.filterMap_cons, Option.isSome_some,
          true_and]
        by_cases hblank : Blank l
        · simp [hblank]
        · simp [hblank]

/-- The server never reports less than it should of a line, unless it ends. -/
theorem expectedOf_length_le (parse : Str → Except Str (Request V)) (hne : l ≠ [])
    (hpiece : Piece newline l)
    (hend : (readAll parse l).2 = .eof) :
    (expectedOf parse l).length ≤ (outcomes (readAll parse l).1).length := by
  have hone : (expectedOf parse l).length ≤ 1 := by
    rw [expectedOf]
    split <;> simp
  by_cases hshort : Short l
  · have hline := readAll_line_iff parse hne hpiece
    have hclean : Clean l := by
      rw [Clean, if_pos hshort]
      rw [readAll_short hne hpiece hshort] at hend
      cases hdecode : decode l with
      | none =>
          rw [hdecode] at hend
          cases hend
      | some text => rfl
    rw [(hline.mpr hclean).1]
  · rw [readAll_long hpiece hshort] at hend ⊢
    cases hdecode : decode (l.take (maxLineLen + 1)) with
    | none =>
        rw [hdecode] at hend
        cases hend
    | some text =>
        refine hone.trans ?_
        simp [outcomes, ReadResult.outcome]

/-! ## The whole stream -/

theorem outcomes_append (reads reads' : List (ReadResult V)) :
    outcomes (reads ++ reads') = outcomes reads ++ outcomes reads' := List.filterMap_append

/-- **A stream is read as it should be exactly when each of its lines is clean**; a server that
    reaches the end of input never reports less than one outcome for each line that is not blank. -/
theorem readAll_iff (parse : Str → Except Str (Request V)) (s : Bytes) :
    ((outcomes (readAll parse s).1 = expected parse s ∧ (readAll parse s).2 = .eof) ↔
      ∀ l ∈ lines newline s, Clean l) ∧
    ((readAll parse s).2 = .eof →
      (expected parse s).length ≤ (outcomes (readAll parse s).1).length) := by
  induction hn : s.length using Nat.strong_induction_on generalizing s with
  | h n ih =>
      by_cases hs : s = []
      · subst hs
        rw [readAll_nil]
        exact ⟨iff_of_true ⟨rfl, rfl⟩ (by simp [lines]), fun _ => Nat.le_refl _⟩
      · obtain ⟨l, rest, rfl, hlines, hne, hpiece, hend⟩ := exists_line newline hs
        have hlt : rest.length < n := by
          rw [← hn, List.length_append]
          have hpos := List.length_pos_of_ne_nil hne
          omega
        obtain ⟨hrest, hrestLength⟩ := ih rest.length hlt rest rfl
        have hline := readAll_line_iff parse hne hpiece
        have hlineLength := expectedOf_length_le parse hne hpiece
        have hexpected : expected parse (l ++ rest) = expectedOf parse l ++ expected parse rest := by
          rw [expected, hlines, List.flatMap_cons]
          rfl
        rw [readAll_append hpiece hend, hlines, List.forall_mem_cons, ← hrest, ← hline, hexpected]
        revert hlineLength hrestLength
        rcases readAll parse l with ⟨reads, _ | _⟩
        · rcases readAll parse rest with ⟨reads', ending⟩
          intro hrestLength hlineLength
          simp only [combine, outcomes_append] at hlineLength hrestLength ⊢
          constructor
          · constructor
            · rintro ⟨hsame, heof⟩
              have hle := hlineLength trivial
              have hle' := hrestLength heof
              have hlength := congrArg List.length hsame
              rw [List.length_append, List.length_append] at hlength
              obtain ⟨hfirst, hothers⟩ := List.append_inj hsame (by omega)
              exact ⟨⟨hfirst, trivial⟩, hothers, heof⟩
            · rintro ⟨⟨hfirst, -⟩, hothers, heof⟩
              exact ⟨by rw [hfirst, hothers], heof⟩
          · intro heof
            rw [List.length_append, List.length_append]
            exact Nat.add_le_add (hlineLength trivial) (hrestLength heof)
        · intro _ _
          refine ⟨iff_of_false ?_ ?_, ?_⟩
          · rintro ⟨-, heof⟩
            cases heof
          · rintro ⟨⟨-, heof⟩, -⟩
            cases heof
          · intro heof
            cases heof

/-! ## The server -/

section Server

variable (server : Server σ V)

/-- The requests handed to the dispatch. -/
def executed (reads : List (ReadResult V)) : List (Request V) :=
  (outcomes reads).filterMap Outcome.request

/-- The loop reads as `readAll` does, whatever it does with the requests in between: it executes
    each request, and answers those that have an id. -/
theorem run_reads (state : σ) (s : Bytes) :
    (run server state s).reads = (readAll server.parse s).1 ∧
      (run server state s).ending = (readAll server.parse s).2 ∧
      (run server state s).executed = executed (readAll server.parse s).1 ∧
      (run server state s).messages.filterMap Message.responseId =
        (executed (readAll server.parse s).1).filterMap Request.id := by
  induction hn : s.length using Nat.strong_induction_on generalizing s state with
  | h n ih =>
      rw [run, readAll_eq]
      split
      · rename_i hread
        rw [hread]
        exact ⟨rfl, rfl, rfl, rfl⟩
      · rename_i hread
        rw [hread]
        exact ⟨rfl, rfl, rfl, rfl⟩
      · rename_i written rest hread
        rw [hread]
        obtain ⟨hreads, hending, hexecuted, hmessages⟩ :=
          ih rest.length (hn ▸ readMessage_next (by rw [hread]; rfl)) state rest rfl
        refine ⟨?_, hending, hexecuted, hmessages⟩
        simp only [hreads]
        rfl
      · rename_i req rest hread
        rw [hread]
        obtain ⟨hreads, hending, hexecuted, hmessages⟩ :=
          ih rest.length (hn ▸ readMessage_next (by rw [hread]; rfl))
            (handleRequest server state req).1 rest rfl
        refine ⟨?_, hending, ?_, ?_⟩
        · simp only [hreads]
          rfl
        · simp only [hexecuted]
          rfl
        · have hanswer : (((handleRequest server state req).2.map
              (writeMessage server)).toList).filterMap Message.responseId = req.id.toList := by
            cases req with
            | standard id method params =>
                simp only [handleRequest, Option.map_some, Option.toList_some, writeMessage]
                split <;> rfl
            | notification method params => rfl
          simp only [List.filterMap_append, hanswer, hmessages]
          cases req <;> rfl

/-- The transport is in sync: one outcome per line that is not blank, only the end of input ends the
    loop, each request with an id is answered once and in order, and what is executed are requests
    of lines of at most 1 MiB. -/
structure InSync (state : σ) (s : Bytes) : Prop where
  outcomes : outcomes (run server state s).reads = expected server.parse s
  ending : (run server state s).ending = .eof
  responses : (run server state s).messages.filterMap Message.responseId =
    ((expected server.parse s).filterMap Outcome.request).filterMap Request.id
  requests : ∀ req ∈ (run server state s).executed, ∃ l ∈ lines newline s, Asks server.parse l req

theorem asks_of_expected {s : Bytes} {req : Request V}
    (h : Outcome.msg req ∈ expected parse s) : ∃ l ∈ lines newline s, Asks parse l req := by
  obtain ⟨l, hl, hmem⟩ := List.mem_flatMap.mp h
  refine ⟨l, hl, ?_⟩
  rw [expectedOf] at hmem
  split at hmem
  · exact absurd hmem List.not_mem_nil
  · have hout := List.mem_singleton.mp hmem
    rw [outcomeOf] at hout
    split at hout
    · rename_i hshort
      refine ⟨hshort, ?_⟩
      cases hdecode : decode l with
      | none =>
          rw [hdecode] at hout
          cases hout
      | some text =>
          rw [hdecode] at hout
          simp only at hout
          cases hparse : parse (trim isWhitespace text) with
          | ok req' =>
              rw [hparse] at hout
              cases hout
              exact ⟨text, rfl, hparse⟩
          | error e =>
              rw [hparse] at hout
              cases hout
    · cases hout

/-- **The transport is in sync on a stream exactly when every line of it is clean.** -/
theorem inSync_iff (state : σ) (s : Bytes) :
    InSync server state s ↔ ∀ l ∈ lines newline s, Clean l := by
  obtain ⟨hreads, hending, hexecuted, hmessages⟩ := run_reads server state s
  rw [← (readAll_iff server.parse s).1]
  constructor
  · intro h
    exact ⟨hreads ▸ h.outcomes, hending ▸ h.ending⟩
  · rintro ⟨hsame, heof⟩
    refine ⟨hreads ▸ hsame, hending ▸ heof, ?_, ?_⟩
    · rw [hmessages, executed, hsame]
    · rw [hexecuted, executed, hsame]
      intro req hreq
      obtain ⟨outcome, hmem, hrequest⟩ := List.mem_filterMap.mp hreq
      cases outcome with
      | msg req' =>
          cases hrequest
          exact asks_of_expected hmem
      | parseError => cases hrequest

end Server

/-! ## A byte that is no text -/

/-- A request for the method `ping`. -/
def pingText : Str := str "\x7b\"jsonrpc\":\"2.0\",\"id\":1,\"method\":\"ping\"\x7d"

/-- A server that knows this request and no other, and answers that there is no such method. -/
def pingServer : Server Unit ℕ where
  parse text := if text = pingText then .ok (.standard 1 (str "ping") none)
    else .error (str "expected value at line 1 column 1")
  dispatch state method _ := (state, .error ⟨-32601, str "Method not found: " ++ method, none⟩)
  size _ := 80

/-- A line of one byte that no UTF-8 text has, and then the request. -/
def strayByte : Bytes := 0xFF :: newline :: (pingText.map fun c => UInt8.ofNat c.toNat)

theorem strayByte_ends_server : (run pingServer () strayByte).ending = .failed ∧
    (run pingServer () strayByte).messages = [] ∧ ¬ InSync pingServer () strayByte := by
  have hread : readUntil newline strayByte (maxLineLen + 1) =
      ([0xFF, newline], pingText.map fun c => UInt8.ofNat c.toNat) := by decide +kernel
  have hdecode : decode [0xFF, newline] = none := by decide +kernel
  have hturn : turn pingServer.parse strayByte =
      .done none (pingText.map fun c => UInt8.ofNat c.toNat) := by
    rw [turn, hread]
    simp only [afterRead, hdecode]
  have hmessage : readMessage pingServer.parse strayByte =
      (none, pingText.map fun c => UInt8.ofNat c.toNat) := by
    rw [readMessage]
    split
    · rename_i h
      rw [hturn] at h
      cases h
    · rename_i h
      rw [hturn] at h
      cases h
      rfl
  have hrun : run pingServer () strayByte = ⟨[], [], [], .failed⟩ := by
    rw [run]
    split
    · rfl
    all_goals
      rename_i h
      rw [hmessage] at h
      cases h
  rw [hrun]
  refine ⟨rfl, rfl, ?_⟩
  intro h
  have hending := h.ending
  rw [hrun] at hending
  cases hending

end CodeScope.Mcp
