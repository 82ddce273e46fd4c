import CodeScope.Library.Interleaving

/-! # The streaming index pipeline

Parse workers claim jobs from a shared counter and push their results to a bounded queue, a single
writer hands them to the store in batches. With the dynamic scheduler a monitor starts temporary
workers on borrowed cores, which give up between two jobs; the main thread ends the parse phase,
waits for the monitor and the temporary workers, closes the queue and joins the writer.

Every push, pop, load and store of a shared variable is one step of its thread (`act`), so the runs
of `pipeline` are the interleavings. What depends on the machine (the outcome of parsing a file, the
pool of free cores, whether a thread can be created) is the `Choice` of the step. Opening and
committing the transaction is left to the model of the two transports. -/

namespace CodeScope.Index

open Interleaving

/-! ## The queue -/

/-- `BoundedQueue`, with the operations the pipeline uses. -/
structure BoundedQueue (R : Type) where
  capacity : Nat
  done : Bool
  items : List R

namespace BoundedQueue

variable {R : Type}

/-- `push` under the lock: `none` while it waits; a closed queue drops the value. -/
def push (q : BoundedQueue R) (value : R) : Option (BoundedQueue R × Bool) :=
  if q.items.length < q.capacity ∨ q.done then
    if q.done then some (q, false) else some ({ q with items := q.items ++ [value] }, true)
  else none

theorem push_of_open {q q' : BoundedQueue R} {value : R} {accepted : Bool}
    (h : q.push value = some (q', accepted)) (hopen : q.done = false) :
    accepted = true ∧ q' = { q with items := q.items ++ [value] } := by
  unfold push at h
  split_ifs at h with hroom hdone
  · rw [hopen] at hdone
    exact Bool.noConfusion hdone
  · obtain ⟨rfl, rfl⟩ := Prod.mk.inj (Option.some.inj h)
    exact ⟨rfl, rfl⟩

/-- `pop` under the lock: `none` while it waits; no value when the queue is closed and empty. -/
def pop (q : BoundedQueue R) : Option (BoundedQueue R × Option R) :=
  match q.items with
  | [] => if q.done then some (q, none) else none
  | value :: rest => some ({ q with items := rest }, some value)

theorem pop_cases {q q' : BoundedQueue R} {v : Option R} (h : q.pop = some (q', v)) :
    (v = none ∧ q.done = true ∧ q.items = [] ∧ q' = q) ∨
      ∃ value rest, v = some value ∧ q.items = value :: rest ∧ q' = { q with items := rest } := by
  unfold pop at h
  split at h
  · rename_i hitems
    split_ifs at h with hdone
    obtain ⟨rfl, rfl⟩ := Prod.mk.inj (Option.some.inj h)
    exact .inl ⟨rfl, hdone, hitems, rfl⟩
  · rename_i value rest hitems
    obtain ⟨rfl, rfl⟩ := Prod.mk.inj (Option.some.inj h)
    exact .inr ⟨value, rest, rfl, hitems, rfl⟩

def markDone (q : BoundedQueue R) : BoundedQueue R := { q with done := true }

end BoundedQueue

/-! ## The threads -/

inductive Thread (n : Nat) where
  | main
  | monitor
  | writer
  | fixed (i : Fin n)
  | temp (j : Nat)
deriving DecidableEq

def Thread.isTemp {n : Nat} : Thread n → Bool
  | .temp _ => true
  | _ => false

/-- What the threads share. `claims`, `pushes`, `dropped` and `batches` are history: the jobs in the
    order of their claims, the results in the order of their pushes, the number of results a push
    dropped, and the batches handed to `insertFileResultBatch`. -/
structure Shared (n : Nat) (R : Type) where
  nextJob : Nat
  parseDone : Bool
  activeParseThreads : Nat
  queue : BoundedQueue R
  filesWritten : Nat
  /-- Temporary workers created so far. -/
  spawned : Nat
  /-- The threads that have run to their end. -/
  exited : Thread n → Bool
  claims : List Nat
  pushes : List R
  dropped : Nat
  batches : List (List R)

/-- Where a thread stands: the access it performs next. -/
inductive Pc (R : Type) where
  -- main thread
  | joinWorker (k : Nat)
  | endParse
  | joinMonitor
  | awaitTemps
  | closeQueue
  | joinWriter
  | returned
  -- monitor
  | monitorStart
  | loopTest
  | wakeTest
  | loadActive
  | grabCores
  | raise
  | spawn
  | lower
  | monitorEnd
  | stopped
  -- parse worker
  | unborn
  | testParseDone
  | testCores
  | claim
  | parse (idx : Nat)
  | push (result : R)
  | leave
  | gone
  -- writer
  | popFirst (batch : List R)
  | popMore (batch : List R)
  | testDone (batch : List R)
  | flush (batch : List R)
  | flushLast (batch : List R)
  | writerEnd
  | written
deriving DecidableEq

/-- What the machine decides in a step: nothing, yes or no, or how parsing a file ended (`none`
    when the file is skipped or has no records). -/
inductive Choice (R : Type) where
  | go
  | yes
  | no
  | parsed (result : Option R)
deriving DecidableEq

def writerBatchSize : Nat := 50

/-- The top of the worker's loop: a temporary worker first looks whether to give up. -/
def workerLoop {n : Nat} {R : Type} (w : Thread n) : Pc R :=
  if w.isTemp then .testParseDone else .claim

/-- The state of a monitored index run: `jobs` files, `cores` initial workers, and whether the
    scheduler's segment is attached. -/
structure Setup where
  jobs : Nat
  cores : Nat
  dynamic : Bool

section Step

variable {n : Nat} {R : Type}

/-- Thread `w` ends. -/
def Shared.exit (σ : Shared n R) (w : Thread n) : Shared n R :=
  { σ with exited := Function.update σ.exited w true }

/-- A job index is taken from the counter. -/
def Shared.takeJob (jobs : Nat) (σ : Shared n R) : Shared n R :=
  { σ with
    nextJob := σ.nextJob + 1
    claims := if σ.nextJob < jobs then σ.claims ++ [σ.nextJob] else σ.claims }

/-- A batch goes to the store. -/
def Shared.writeBatch (σ : Shared n R) (batch : List R) : Shared n R :=
  { σ with
    filesWritten := σ.filesWritten + batch.length
    batches := σ.batches ++ [batch] }

/-- One access by thread `w`. -/
def act (S : Setup) (w : Thread n) (c : Choice R) (σ : Shared n R) :
    Pc R → Option (Shared n R × Pc R)
  -- main thread: join the workers, end the parse phase, shut down
  | .joinWorker k =>
    if h : k < n then
      if σ.exited (.fixed ⟨k, h⟩) then some (σ, .joinWorker (k + 1)) else none
    else some (σ, .endParse)
  | .endParse => some ({ σ with parseDone := true }, .joinMonitor)
  | .joinMonitor => if σ.exited .monitor then some (σ, .awaitTemps) else none
  | .awaitTemps => some (σ, if 0 < σ.activeParseThreads then .awaitTemps else .closeQueue)
  | .closeQueue => some ({ σ with queue := σ.queue.markDone }, .joinWriter)
  | .joinWriter => if σ.exited .writer then some (σ, .returned) else none
  | .returned => none
  -- monitor
  | .monitorStart => some (σ, if S.dynamic then .loopTest else .monitorEnd)
  | .loopTest => some (σ, if σ.parseDone then .monitorEnd else .wakeTest)
  | .wakeTest => some (σ, if σ.parseDone then .monitorEnd else .loadActive)
  | .loadActive =>
    some (σ, if S.cores * 2 ≤ σ.activeParseThreads then .loopTest else .grabCores)
  | .grabCores =>
    match c with
    | .yes => some (σ, .raise)
    | .no => some (σ, .loopTest)
    | _ => none
  | .raise => some ({ σ with activeParseThreads := σ.activeParseThreads + 1 }, .spawn)
  | .spawn =>
    match c with
    | .yes => some ({ σ with spawned := σ.spawned + 1 }, .loopTest)
    | .no => some (σ, .lower)
    | _ => none
  | .lower => some ({ σ with activeParseThreads := σ.activeParseThreads - 1 }, .loopTest)
  | .monitorEnd => some (σ.exit w, .stopped)
  | .stopped => none
  -- parse workers
  | .unborn =>
    match w with
    | .temp j => if j < σ.spawned then some (σ, .testParseDone) else none
    | _ => none
  | .testParseDone => some (σ, if σ.parseDone then .leave else .testCores)
  | .testCores =>
    match c with
    | .yes => some (σ, .claim)
    | .no => some (σ, .leave)
    | _ => none
  | .claim =>
    some (σ.takeJob S.jobs, if σ.nextJob < S.jobs then .parse σ.nextJob else .leave)
  | .parse _ =>
    match c with
    | .parsed (some result) => some (σ, .push result)
    | .parsed none => some (σ, workerLoop w)
    | _ => none
  | .push result =>
    (σ.queue.push result).map fun (queue, accepted) =>
      (if accepted then { σ with queue, pushes := σ.pushes ++ [result] }
        else { σ with queue, dropped := σ.dropped + 1 }, workerLoop w)
  | .leave =>
    if w.isTemp then
      some ({ σ.exit w with activeParseThreads := σ.activeParseThreads - 1 }, .gone)
    else some (σ.exit w, .gone)
  | .gone => none
  -- writer
  | .popFirst batch =>
    σ.queue.pop.map fun (queue, value) =>
      match value with
      | none => ({ σ with queue }, if batch = [] then .writerEnd else .flushLast batch)
      | some value => ({ σ with queue }, .popMore (batch ++ [value]))
  | .popMore batch =>
    if batch.length < writerBatchSize then
      σ.queue.pop.map fun (queue, value) =>
        match value with
        | none => ({ σ with queue }, .testDone batch)
        | some value => ({ σ with queue }, .popMore (batch ++ [value]))
    else some (σ, .testDone batch)
  | .testDone batch =>
    some (σ, if writerBatchSize ≤ batch.length ∨ σ.queue.done then .flush batch
      else .popFirst batch)
  | .flush batch => some (σ.writeBatch batch, .popFirst [])
  | .flushLast batch => some (σ.writeBatch batch, .writerEnd)
  | .writerEnd => some (σ.exit w, .written)
  | .written => none

end Step

/-- The pipeline; the environment makes no moves of its own. -/
def pipeline (S : Setup) (n : Nat) (R : Type) [DecidableEq R] :
    Program (Thread n) Empty (Choice R) (Shared n R) (Pc R) where
  act := act S
  env := fun e _ => e.elim

/-- The state in which the threads have been created. -/
def initial (n capacity : Nat) (R : Type) : World (Thread n) (Shared n R) (Pc R) where
  shared :=
    { nextJob := 0, parseDone := false, activeParseThreads := 0
      queue := ⟨if 0 < capacity then capacity else 1, false, []⟩
      filesWritten := 0, spawned := 0, exited := fun _ => false
      claims := [], pushes := [], dropped := 0, batches := [] }
  locals
    | .main => .joinWorker 0
    | .monitor => .monitorStart
    | .writer => .popFirst []
    | .fixed _ => .claim
    | .temp _ => .unborn

end CodeScope.Index
