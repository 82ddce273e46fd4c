import CodeScope.Library.KeyedTable
import CodeScope.Library.Text
import CodeScope.Store.BuildCsr

/-! # Parse failures

`parse_failures` has one row per file of a project, with a counter that every failure moves and the
reason of the last one. A file is skipped once its counter reaches the retry limit, unless the last
reason is `language_missing`. Workers put failures in a buffer, which is written in one transaction;
the buffer is emptied before the transaction is known to succeed.

The counter and the reason stand for a count of the failures other than `language_missing`. They do
as long as no file has failures of both kinds between two resets. -/

namespace CodeScope.Store

open Text (Str str)

/-! ## The table and the buffer -/

/-- A failure as the workers report it. -/
structure ParseFailure where
  project : ℕ
  file : Str
  reason : Str
deriving DecidableEq

structure FailureRow where
  project : ℕ
  file : Str
  failReason : Str
  failCount : ℕ
deriving DecidableEq

def FailureRow.key (row : FailureRow) : ℕ × Str := (row.project, row.file)

def kLanguageMissing : Str := str "language_missing"

/-- The rows of `parse_failures`, one for each primary key. -/
structure FailureTable where
  rows : List FailureRow
  keys : (rows.map FailureRow.key).Nodup

/-- The table and `g_failure_buf`. -/
structure FailureStore where
  table : FailureTable
  buffer : List ParseFailure

def FailureTable.empty : FailureTable := ⟨[], List.nodup_nil⟩

def FailureStore.empty : FailureStore := ⟨.empty, []⟩

/-- `fail_count = fail_count + 1, fail_reason = excluded.fail_reason` -/
def FailureRow.again (reason : Str) (row : FailureRow) : FailureRow :=
  { row with failReason := reason, failCount := row.failCount + 1 }

/-- The `INSERT … ON CONFLICT DO UPDATE` of one failure. -/
def FailureTable.write (t : FailureTable) (f : ParseFailure) : FailureTable where
  rows := KeyedTable.upsert FailureRow.key (FailureRow.again f.reason)
    ⟨f.project, f.file, f.reason, 1⟩ t.rows
  keys := KeyedTable.nodup_upsert FailureRow.key (FailureRow.again f.reason) _ (fun _ hkey => hkey)
    t.keys

/-- The row of a file. -/
def FailureTable.rowOf (t : FailureTable) (project : ℕ) (file : Str) : Option FailureRow :=
  KeyedTable.find FailureRow.key t.rows (project, file)

namespace FailureStore

variable (s : FailureStore)

/-! ## Writing -/

def recordParseFailure (f : ParseFailure) : FailureStore := { s with table := s.table.write f }

def bufferParseFailure (f : ParseFailure) : FailureStore := { s with buffer := s.buffer ++ [f] }

/-- `ok` says whether the database takes the batch; any statement of the transaction may be the one
    that fails, and what it wrote is rolled back. -/
def flushParseFailures (ok : Bool) : Int × FailureStore :=
  let batch := s.buffer
  let emptied := { s with buffer := [] }
  if batch = [] then (0, emptied)
  else if ok then
    (toInt batch.length, { emptied with table := batch.foldl FailureTable.write s.table })
  else (-1, emptied)

def resetParseFailures (project : ℕ) : FailureStore :=
  { s with table := {
      rows := s.table.rows.filter fun row => row.project ≠ project
      keys := s.table.keys.sublist (List.Sublist.map _ List.filter_sublist) } }

/-! ## Reading -/

/-- The paths a run skips. -/
def loadKnownParseFailures (project : ℕ) (retryMax : Int) : List Str :=
  (s.table.rows.filter fun row => row.project = project ∧ retryMax ≤ row.failCount ∧
    row.failReason ≠ kLanguageMissing).map (·.file)

/-- The counter is read as an `int`. -/
def isKnownParseFailure (project : ℕ) (file : Str) (retryMax : Int) : Bool :=
  match s.table.rowOf project file with
  | some row => row.failReason ≠ kLanguageMissing && retryMax ≤ toInt row.failCount
  | none => false

end FailureStore

/-! ## Runs -/

inductive FailureEvent where
  | record (f : ParseFailure)
  | buffer (f : ParseFailure)
  | flush (ok : Bool)
  | reset (project : ℕ)

def FailureStore.step (s : FailureStore) : FailureEvent → FailureStore
  | .record f => s.recordParseFailure f
  | .buffer f => s.bufferParseFailure f
  | .flush ok => (s.flushParseFailures ok).2
  | .reset project => s.resetParseFailures project

def FailureStore.run (events : List FailureEvent) : FailureStore :=
  events.foldl FailureStore.step .empty

/-! ## What is recorded

The failures of each project since its last reset, and those that wait for a flush that succeeds. -/

structure FailureLog where
  recorded : List ParseFailure
  pending : List ParseFailure

namespace FailureLog

def step (log : FailureLog) : FailureEvent → FailureLog
  | .record f => { log with recorded := log.recorded ++ [f] }
  | .buffer f => { log with pending := log.pending ++ [f] }
  | .flush true => ⟨log.recorded ++ log.pending, []⟩
  | .flush false => log
  | .reset project => { log with recorded := log.recorded.filter fun f => f.project ≠ project }

def run (events : List FailureEvent) : FailureLog := events.foldl FailureLog.step ⟨[], []⟩

end FailureLog

/-- A failure that counts against the file. -/
def ParseFailure.genuine (f : ParseFailure) : Bool := f.reason ≠ kLanguageMissing

/-- How many failures count against a file. -/
def failuresOf (recorded : List ParseFailure) (project : ℕ) (file : Str) : ℕ :=
  (recorded.filter fun f => f.genuine ∧ f.project = project ∧ f.file = file).length

/-- The files that are skipped are those with enough failures, by either reader and for every retry
    limit an `int` can hold. -/
def SkipsFailing (s : FailureStore) (log : FailureLog) : Prop :=
  ∀ (retryMax : Int) (project : ℕ) (file : Str), 1 ≤ retryMax → retryMax < 2 ^ 31 →
    (file ∈ s.loadKnownParseFailures project retryMax ↔
      retryMax ≤ failuresOf log.recorded project file) ∧
    (s.isKnownParseFailure project file retryMax = true ↔
      file ∈ s.loadKnownParseFailures project retryMax)

/-! ## The row of a file -/

theorem rowOf_write (t : FailureTable) (f : ParseFailure) (project : ℕ) (file : Str) :
    (t.write f).rowOf project file =
      if f.project = project ∧ f.file = file then
        some (((t.rowOf project file).map (FailureRow.again f.reason)).getD
          ⟨f.project, f.file, f.reason, 1⟩)
      else t.rowOf project file := by
  have hfind := KeyedTable.find_upsert FailureRow.key (FailureRow.again f.reason)
    ⟨f.project, f.file, f.reason, 1⟩ (fun _ hkey => hkey) t.rows (project, file)
  have hkey : FailureRow.key ⟨f.project, f.file, f.reason, 1⟩ = (project, file) ↔
      f.project = project ∧ f.file = file := Prod.mk_inj
  simp only [hkey] at hfind
  exact hfind

theorem rowOf_reset (s : FailureStore) (reset project : ℕ) (file : Str) :
    (s.resetParseFailures reset).table.rowOf project file =
      if project ≠ reset then s.table.rowOf project file else none := by
  have hfind := KeyedTable.find_filter FailureRow.key (fun k => decide (k.1 ≠ reset)) s.table.rows
    (project, file)
  simp only [decide_eq_true_eq] at hfind
  exact hfind

theorem mem_loadKnown (s : FailureStore) (project : ℕ) (retryMax : Int) (file : Str) :
    file ∈ s.loadKnownParseFailures project retryMax ↔
      ∃ row, s.table.rowOf project file = some row ∧ retryMax ≤ row.failCount ∧
        row.failReason ≠ kLanguageMissing := by
  rw [FailureStore.loadKnownParseFailures, List.mem_map]
  constructor
  · rintro ⟨row, hrow, rfl⟩
    obtain ⟨hmem, htest⟩ := List.mem_filter.mp hrow
    obtain ⟨rfl, hcount, hreason⟩ := of_decide_eq_true htest
    exact ⟨row, (KeyedTable.mem_iff_find s.table.keys).mp hmem, hcount, hreason⟩
  · rintro ⟨row, hrow, hcount, hreason⟩
    have hkey : row.key = (project, file) := KeyedTable.key_of_find hrow
    obtain ⟨hproject, hfile⟩ := Prod.mk.inj hkey
    have hmem : row ∈ s.table.rows := List.mem_of_find?_eq_some hrow
    exact ⟨row, List.mem_filter.mpr ⟨hmem, decide_eq_true ⟨hproject, hcount, hreason⟩⟩, hfile⟩

/-! ## Steps that keep the count -/

/-- Writing the failure keeps its file's failures of one kind, and the counter within an `int`. -/
def WriteFits (t : FailureTable) (f : ParseFailure) : Prop :=
  ∀ row ∈ t.rowOf f.project f.file,
    (row.failReason = kLanguageMissing ↔ f.reason = kLanguageMissing) ∧
      row.failCount + 1 < 2 ^ 31

instance (t : FailureTable) (f : ParseFailure) : Decidable (WriteFits t f) :=
  inferInstanceAs (Decidable (∀ row ∈ t.rowOf f.project f.file,
    (row.failReason = kLanguageMissing ↔ f.reason = kLanguageMissing) ∧
      row.failCount + 1 < 2 ^ 31))

def BatchFits : FailureTable → List ParseFailure → Prop
  | _, [] => True
  | t, f :: batch => WriteFits t f ∧ BatchFits (t.write f) batch

instance decidableBatchFits : ∀ t batch, Decidable (BatchFits t batch)
  | _, [] => inferInstanceAs (Decidable True)
  | t, f :: batch =>
    have := decidableBatchFits (t.write f) batch
    inferInstanceAs (Decidable (WriteFits t f ∧ BatchFits (t.write f) batch))

/-- The condition on a step: every failure that is written fits, and a flush that fails finds
    nothing but `language_missing` in the buffer. -/
def StepFits (s : FailureStore) : FailureEvent → Prop
  | .record f => WriteFits s.table f
  | .buffer _ => True
  | .flush true => BatchFits s.table s.buffer
  | .flush false => ∀ f ∈ s.buffer, f.genuine = false
  | .reset _ => True

instance decidableStepFits (s : FailureStore) : ∀ e, Decidable (StepFits s e)
  | .record f => inferInstanceAs (Decidable (WriteFits s.table f))
  | .buffer _ => inferInstanceAs (Decidable True)
  | .flush true => inferInstanceAs (Decidable (BatchFits s.table s.buffer))
  | .flush false => inferInstanceAs (Decidable (∀ f ∈ s.buffer, f.genuine = false))
  | .reset _ => inferInstanceAs (Decidable True)

def RunFits : FailureStore → List FailureEvent → Prop
  | _, [] => True
  | s, e :: events => StepFits s e ∧ RunFits (s.step e) events

instance decidableRunFits : ∀ s events, Decidable (RunFits s events)
  | _, [] => inferInstanceAs (Decidable True)
  | s, e :: events =>
    have := decidableRunFits (s.step e) events
    inferInstanceAs (Decidable (StepFits s e ∧ RunFits (s.step e) events))

/-- The row of a file carries its count: none or a `language_missing` row for a count of zero, the
    counter of any other row. -/
def Carries (row : Option FailureRow) (count : ℕ) : Prop :=
  match row with
  | none => count = 0
  | some row =>
    1 ≤ row.failCount ∧ row.failCount < 2 ^ 31 ∧
      count = if row.failReason = kLanguageMissing then 0 else row.failCount

/-- Every row carries the count of what was recorded, and no failure that counts is missing from
    the buffer. -/
structure Counts (s : FailureStore) (log : FailureLog) : Prop where
  rows : ∀ project file,
    Carries (s.table.rowOf project file) (failuresOf log.recorded project file)
  waiting : s.buffer.filter (·.genuine) = log.pending.filter (·.genuine)

theorem failuresOf_append (l m : List ParseFailure) (project : ℕ) (file : Str) :
    failuresOf (l ++ m) project file = failuresOf l project file + failuresOf m project file := by
  rw [failuresOf, List.filter_append, List.length_append]
  rfl

theorem failuresOf_genuine (l : List ParseFailure) (project : ℕ) (file : Str) :
    failuresOf (l.filter (·.genuine)) project file = failuresOf l project file := by
  rw [failuresOf, failuresOf, List.filter_filter]
  congr 1
  refine List.filter_congr ?_
  intro f _
  cases f.genuine <;> simp

theorem failuresOf_single (f : ParseFailure) (project : ℕ) (file : Str) :
    failuresOf [f] project file =
      if f.project = project ∧ f.file = file then (if f.reason = kLanguageMissing then 0 else 1)
      else 0 := by
  rw [failuresOf, List.filter_singleton]
  by_cases hkey : f.project = project ∧ f.file = file
  · by_cases hreason : f.reason = kLanguageMissing
    · simp [ParseFailure.genuine, hkey, hreason]
    · simp [ParseFailure.genuine, hkey, hreason]
  · rw [if_neg hkey]
    simp [hkey]

/-- One write moves the row as it moves the count. -/
theorem carries_write {t : FailureTable} {f : ParseFailure} (hfits : WriteFits t f)
    {recorded : List ParseFailure}
    (h : ∀ project file, Carries (t.rowOf project file) (failuresOf recorded project file))
    (project : ℕ) (file : Str) :
    Carries ((t.write f).rowOf project file) (failuresOf (recorded ++ [f]) project file) := by
  have hold := h project file
  rw [rowOf_write, failuresOf_append, failuresOf_single]
  by_cases hkey : f.project = project ∧ f.file = file
  · obtain ⟨rfl, rfl⟩ := hkey
    rw [if_pos ⟨rfl, rfl⟩, if_pos ⟨rfl, rfl⟩]
    cases hrow : t.rowOf f.project f.file with
    | none =>
        rw [hrow, Carries] at hold
        rw [hold, Nat.zero_add]
        exact ⟨Nat.le_refl 1, Nat.one_lt_two_pow (by decide), rfl⟩
    | some row =>
        obtain ⟨hkind, hsmall⟩ := hfits row hrow
        rw [hrow] at hold
        obtain ⟨_, _, hcount⟩ := hold
        refine ⟨Nat.le_add_left 1 row.failCount, hsmall, ?_⟩
        have hreason : (FailureRow.again f.reason row).failReason = f.reason := rfl
        rw [hcount]
        by_cases hmissing : f.reason = kLanguageMissing
        · simp [FailureRow.again, hmissing, hkind.mpr hmissing]
        · have hother : row.failReason ≠ kLanguageMissing := fun heq => hmissing (hkind.mp heq)
          simp [FailureRow.again, hmissing, hother]
  · rw [if_neg hkey, if_neg hkey, Nat.add_zero]
    exact hold

theorem carries_batch {batch : List ParseFailure} {t : FailureTable}
    (hfits : BatchFits t batch) {recorded : List ParseFailure}
    (h : ∀ project file, Carries (t.rowOf project file) (failuresOf recorded project file)) :
    ∀ project file, Carries ((batch.foldl FailureTable.write t).rowOf project file)
      (failuresOf (recorded ++ batch) project file) := by
  induction batch generalizing t recorded with
  | nil =>
      rw [List.append_nil]
      exact h
  | cons f rest ih =>
      have hrest := ih hfits.2 (carries_write hfits.1 h)
      rw [List.append_assoc] at hrest
      exact hrest

variable {s : FailureStore}

/-- **A step that fits keeps the counts.** -/
theorem Counts.step {log : FailureLog} (h : Counts s log) {e : FailureEvent} (hfits : StepFits s e) :
    Counts (s.step e) (log.step e) := by
  cases e with
  | record f => exact ⟨carries_write hfits h.rows, h.waiting⟩
  | buffer f =>
      refine ⟨h.rows, ?_⟩
      have happend : (s.buffer ++ [f]).filter (·.genuine) =
          (log.pending ++ [f]).filter (·.genuine) := by
        rw [List.filter_append, List.filter_append, h.waiting]
      exact happend
  | flush ok =>
      cases ok with
      | true =>
          have htable : (s.flushParseFailures true).2.table =
              s.buffer.foldl FailureTable.write s.table := by
            rw [FailureStore.flushParseFailures]
            by_cases hempty : s.buffer = []
            · simp [hempty]
            · simp [hempty]
          have hbuffer : (s.flushParseFailures true).2.buffer = [] := by
            rw [FailureStore.flushParseFailures]
            by_cases hempty : s.buffer = []
            · simp [hempty]
            · simp [hempty]
          refine ⟨?_, by rw [FailureStore.step, hbuffer]; rfl⟩
          intro project file
          have hbatch := carries_batch hfits h.rows project file
          have hcount : failuresOf (log.recorded ++ s.buffer) project file =
              failuresOf (log.recorded ++ log.pending) project file := by
            rw [failuresOf_append, failuresOf_append, ← failuresOf_genuine s.buffer, h.waiting,
              failuresOf_genuine]
          rw [FailureStore.step, htable, FailureLog.step, ← hcount]
          exact hbatch
      | false =>
          have hlost : (s.flushParseFailures false).2 = { s with buffer := [] } := by
            rw [FailureStore.flushParseFailures]
            by_cases hempty : s.buffer = []
            · simp [hempty]
            · simp [hempty]
          have hnone : s.buffer.filter (·.genuine) = [] := by
            rw [List.filter_eq_nil_iff]
            intro f hf
            simp [hfits f hf]
          rw [FailureStore.step, hlost]
          exact ⟨h.rows, hnone.symm.trans h.waiting⟩
  | reset cleared =>
      refine ⟨?_, h.waiting⟩
      intro project file
      rw [FailureStore.step, rowOf_reset, FailureLog.step, failuresOf, List.filter_filter]
      by_cases hproject : project = cleared
      · rw [if_neg (by simpa using hproject), Carries, List.length_eq_zero_iff,
          List.filter_eq_nil_iff]
        intro f _ hboth
        simp only [Bool.and_eq_true, decide_eq_true_eq] at hboth
        exact hboth.2 (hboth.1.2.1.trans hproject)
      · rw [if_pos hproject]
        have hsame : (log.recorded.filter fun f => decide (f.genuine ∧ f.project = project ∧
            f.file = file) && decide (f.project ≠ cleared)) =
            log.recorded.filter fun f => f.genuine ∧ f.project = project ∧ f.file = file := by
          refine List.filter_congr ?_
          intro f _
          by_cases hf : f.project = project
          · simp [hf, hproject]
          · simp [hf]
        rw [hsame]
        exact h.rows project file

theorem Counts.run {log : FailureLog} (h : Counts s log) {events : List FailureEvent}
    (hfits : RunFits s events) :
    Counts (events.foldl FailureStore.step s) (events.foldl FailureLog.step log) := by
  induction events generalizing s log with
  | nil => exact h
  | cons e rest ih => exact ih (h.step hfits.1) hfits.2

theorem counts_empty : Counts .empty ⟨[], []⟩ := ⟨fun _ _ => rfl, rfl⟩

/-- Rows that carry the counts skip the files they should. -/
theorem Counts.skipsFailing {log : FailureLog} (h : Counts s log) : SkipsFailing s log := by
  intro retryMax project file hpos hlimit
  have hrow := h.rows project file
  rw [mem_loadKnown, FailureStore.isKnownParseFailure]
  cases hfind : s.table.rowOf project file with
  | none =>
      rw [hfind, Carries] at hrow
      rw [hrow]
      refine ⟨?_, by simp⟩
      constructor
      · rintro ⟨row, hsome, _⟩
        exact absurd hsome (by simp)
      · intro hle
        omega
  | some row =>
      rw [hfind] at hrow
      obtain ⟨_, hsmall, hcount⟩ := hrow
      have hint : toInt row.failCount = row.failCount := toInt_of_lt hsmall
      have hsome : (∃ row', some row = some row' ∧ retryMax ≤ row'.failCount ∧
          row'.failReason ≠ kLanguageMissing) ↔
          retryMax ≤ row.failCount ∧ row.failReason ≠ kLanguageMissing := by simp
      rw [hsome, hcount]
      dsimp only
      rw [hint]
      by_cases hmissing : row.failReason = kLanguageMissing
      · refine ⟨?_, by simp [hmissing]⟩
        rw [if_pos hmissing]
        constructor
        · rintro ⟨_, hne⟩
          exact absurd hmissing hne
        · intro hle
          omega
      · refine ⟨by simp [hmissing], by simp [hmissing]⟩

theorem RunFits.of_prefix {events front : List FailureEvent} (hfits : RunFits s events)
    (hfront : front <+: events) : RunFits s front := by
  induction front generalizing s events with
  | nil => exact trivial
  | cons e rest ih =>
      obtain ⟨back, rfl⟩ := hfront
      exact ⟨hfits.1, ih hfits.2 (List.prefix_append rest back)⟩

/-- **Runs that fit skip the failing files**, in every state on the way. -/
theorem fail_fast_skips_failing {events : List FailureEvent} (hfits : RunFits .empty events)
    {front : List FailureEvent} (hfront : front <+: events) :
    SkipsFailing (FailureStore.run front) (FailureLog.run front) :=
  (counts_empty.run (hfits.of_prefix hfront)).skipsFailing

/-- A file fails twice, once through the buffer, another one for want of a grammar, and their
    project is reset. -/
theorem fail_fast_skips_failing_twice :
    let a : ParseFailure := ⟨1, str "a.c", str "parse_null_tree"⟩
    let b : ParseFailure := ⟨1, str "b.c", kLanguageMissing⟩
    let events : List FailureEvent :=
      [.record a, .buffer a, .record b, .flush true, .buffer b, .flush false, .reset 1]
    SkipsFailing (FailureStore.run (events.take 4)) (FailureLog.run (events.take 4)) := by
  intro a b events
  have hfits : RunFits .empty events := by decide
  exact fail_fast_skips_failing hfits (List.take_prefix 4 events)

/-! ## Failures miscounted -/

/-- A missing grammar counts as the first of two failures; it hides a failure before it; and a flush
    that fails loses what it should have written. -/
theorem failures_miscounted :
    let counted : List FailureEvent :=
      [.record ⟨1, str "a.c", kLanguageMissing⟩, .record ⟨1, str "a.c", str "read_empty"⟩]
    let hidden : List FailureEvent :=
      [.record ⟨1, str "a.c", str "read_empty"⟩, .record ⟨1, str "a.c", kLanguageMissing⟩]
    let lost : List FailureEvent :=
      [.buffer ⟨1, str "a.c", str "read_empty"⟩, .flush false, .flush true]
    ¬ SkipsFailing (FailureStore.run counted) (FailureLog.run counted) ∧
      ¬ SkipsFailing (FailureStore.run hidden) (FailureLog.run hidden) ∧
      ¬ SkipsFailing (FailureStore.run lost) (FailureLog.run lost) := by
  intro counted hidden lost
  refine ⟨?_, ?_, ?_⟩
  · intro hskips
    have hlisted := (hskips 2 1 (str "a.c") (by decide) (by decide)).1
    revert hlisted
    decide
  · intro hskips
    have hlisted := (hskips 1 1 (str "a.c") (by decide) (by decide)).1
    revert hlisted
    decide
  · intro hskips
    have hlisted := (hskips 1 1 (str "a.c") (by decide) (by decide)).1
    revert hlisted
    decide

end CodeScope.Store
