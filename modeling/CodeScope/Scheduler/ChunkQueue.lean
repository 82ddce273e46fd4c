import CodeScope.Library.Interleaving

/-! # The shared chunk queue

The queue lives in shared memory: a header with the number of chunks and one slot of atomics per
chunk. `claim_next`, `mark_done`, `mark_failed`, `reset_stale`, `reset_all_stale` and
`release_worker_chunks` are loops over single atomic loads, stores and compare-and-swaps, so each
of them becomes a program counter (`Pc`) and one step is one access (`access`). The worker threads
run them in any order and may die between any two accesses; the clock only moves forward.

Next to the atomics every slot carries a history variable, `Claim`: who won the last successful
claim swap that no recovery and no release has undone, and when. No step reads it. -/

namespace CodeScope.Scheduler

open Interleaving

/-- The four values of a slot's `status`. -/
inductive ChunkStatus where
  | pending
  | claimed
  | done
  | failed
deriving DecidableEq, Repr

/-- The claim in force on a slot. -/
structure Claim (W : Type) where
  worker : W
  /-- The clock when the swap to CLAIMED succeeded. -/
  since : Nat
  /-- `claim_next` has returned the chunk to its worker. -/
  returned : Bool
  /-- Some worker has stored DONE or FAILED since. -/
  completed : Bool
  /-- A release of the slot has begun. -/
  releasing : Bool
deriving DecidableEq

/-- A slot's atomics (`claimerId = none` stands for `u32::MAX`), with its history variable. -/
structure ChunkSlot (W : Type) where
  status : ChunkStatus
  claimerId : Option W
  startedAtMs : Nat
  finishedAtMs : Nat
  claim : Option (Claim W)
deriving DecidableEq

/-- What the threads share: the slots, the clock `now_ms`, and which of them still run. -/
structure Shared (W : Type) where
  chunks : Nat → ChunkSlot W
  nowMs : Nat
  alive : W → Bool

/-- Where a thread stands: the access it performs next, with the local variables it needs. `scan`
    tells a `reset_all_stale` loop from a single `reset_stale`; `since` is the time of the claim
    the thread works under. -/
inductive Pc (W : Type) where
  | idle
  -- claim_next
  | claimLoad (started i : Nat)
  | claimStamp (started i : Nat)
  | claimCas (started i : Nat)
  | claimOwner (since i : Nat)
  | working (since i : Nat)
  -- mark_done, mark_failed
  | markFinished (since i : Nat) (ok : Bool) (finished : Nat)
  | markStatus (since i : Nat) (ok : Bool)
  -- reset_stale, reset_all_stale
  | resetLoad (scan : Bool) (timeout i : Nat)
  | resetCheck (scan : Bool) (timeout i : Nat)
  | resetNow (scan : Bool) (timeout i started : Nat)
  | resetCas (scan : Bool) (timeout i started : Nat)
  | resetOwner (scan : Bool) (timeout i : Nat)
  | resetStamp (scan : Bool) (timeout i : Nat)
  -- release_worker_chunks
  | releaseLoad (v : W) (i : Nat)
  | releaseOwner (v : W) (i : Nat)
  | releaseStarted (v : W) (i : Nat)
  | releaseFinished (v : W) (i : Nat)
  | releaseStatus (v : W) (i : Nat)
deriving DecidableEq

/-- The slot a thread accesses next. -/
def Pc.slot {W : Type} : Pc W → Nat
  | .idle => 0
  | .claimLoad _ i | .claimStamp _ i | .claimCas _ i | .claimOwner _ i | .working _ i => i
  | .markFinished _ i _ _ | .markStatus _ i _ => i
  | .resetLoad _ _ i | .resetCheck _ _ i | .resetNow _ _ i _ | .resetCas _ _ i _ => i
  | .resetOwner _ _ i | .resetStamp _ _ i => i
  | .releaseLoad _ i | .releaseOwner _ i | .releaseStarted _ i | .releaseFinished _ i => i
  | .releaseStatus _ i => i

/-- The chunk a thread holds, with the time of its claim: from the successful swap until the
    status store that completes the chunk. -/
def Pc.holding {W : Type} : Pc W → Option (Nat × Nat)
  | .claimOwner since i | .working since i => some (i, since)
  | .markFinished since i _ _ | .markStatus since i _ => some (i, since)
  | _ => none

/-- `reset_stale` on slot `i` returns: `reset_all_stale` goes on with the next slot. -/
def resetNext {W : Type} (scan : Bool) (timeout i : Nat) : Pc W :=
  if scan then .resetLoad scan timeout (i + 1) else .idle

/-- The status `mark_done` (`ok`) or `mark_failed` stores. -/
def markedStatus (ok : Bool) : ChunkStatus := if ok then .done else .failed

section Shared

variable {W : Type}

/-- The slots with the one at `i` replaced. -/
def Shared.setChunk (q : Shared W) (i : Nat) (c : ChunkSlot W) : Shared W :=
  { q with chunks := Function.update q.chunks i c }

@[simp] theorem Shared.setChunk_nowMs (q : Shared W) (i : Nat) (c : ChunkSlot W) :
    (q.setChunk i c).nowMs = q.nowMs := rfl

@[simp] theorem Shared.setChunk_self (q : Shared W) (i : Nat) (c : ChunkSlot W) :
    (q.setChunk i c).chunks i = c := by
  simp [Shared.setChunk]

theorem Shared.setChunk_of_ne (q : Shared W) {i j : Nat} (c : ChunkSlot W) (h : j ≠ i) :
    (q.setChunk i c).chunks j = q.chunks j := by
  simp [Shared.setChunk, Function.update_of_ne h]

end Shared

variable {W : Type} [DecidableEq W]

/-- `claim_next(w)` returns under this claim. -/
def Claim.return (w : W) (cl : Claim W) : Claim W :=
  if cl.worker = w then { cl with returned := true } else cl

/-- One atomic access by thread `w` to the slot its program counter points at. -/
def access (count : Nat) (w : W) (now : Nat) (c : ChunkSlot W) :
    Pc W → Option (ChunkSlot W × Pc W)
  | .idle | .working _ _ => none
  | .claimLoad started i =>
      if count ≤ i then some (c, .idle)
      else if c.status = .pending then some (c, .claimStamp started i)
      else some (c, .claimLoad started (i + 1))
  | .claimStamp started i => some ({ c with startedAtMs := started }, .claimCas started i)
  | .claimCas started i =>
      if c.status = .pending then
        some ({ c with status := .claimed, claim := some ⟨w, now, false, false, false⟩ },
          .claimOwner now i)
      else some (c, .claimLoad started (i + 1))
  | .claimOwner since i =>
      some ({ c with claimerId := some w, claim := c.claim.map (Claim.return w) },
        .working since i)
  | .markFinished since i ok finished =>
      some ({ c with finishedAtMs := finished }, .markStatus since i ok)
  | .markStatus _ _ ok =>
      some ({ c with
          status := markedStatus ok
          claim := c.claim.map fun cl => { cl with completed := true } }, .idle)
  | .resetLoad scan timeout i =>
      if count ≤ i then some (c, .idle)
      else if c.startedAtMs = 0 then some (c, .resetCheck scan timeout i)
      else some (c, .resetNow scan timeout i c.startedAtMs)
  | .resetCheck scan timeout i =>
      if c.status = .claimed then some (c, .resetCas scan timeout i 0)
      else some (c, resetNext scan timeout i)
  | .resetNow scan timeout i started =>
      if now - started < timeout then some (c, resetNext scan timeout i)
      else some (c, .resetCas scan timeout i started)
  | .resetCas scan timeout i _ =>
      if c.status = .claimed then
        some ({ c with status := .pending, claim := none }, .resetOwner scan timeout i)
      else some (c, resetNext scan timeout i)
  | .resetOwner scan timeout i => some ({ c with claimerId := none }, .resetStamp scan timeout i)
  | .resetStamp scan timeout i => some ({ c with startedAtMs := 0 }, resetNext scan timeout i)
  | .releaseLoad v i =>
      if count ≤ i then some (c, .idle)
      else if c.claimerId = some v then some (c, .releaseOwner v i)
      else some (c, .releaseLoad v (i + 1))
  | .releaseOwner v i =>
      some ({ c with
          claimerId := none
          claim := c.claim.map fun cl => { cl with releasing := true } }, .releaseStarted v i)
  | .releaseStarted v i => some ({ c with startedAtMs := 0 }, .releaseFinished v i)
  | .releaseFinished v i => some ({ c with finishedAtMs := 0 }, .releaseStatus v i)
  | .releaseStatus v i =>
      some ({ c with status := .pending, claim := none }, .releaseLoad v (i + 1))

/-- The accesses that leave the slot `c` as it is, and where the thread goes on. -/
inductive Reads (count now : Nat) (c : ChunkSlot W) : Pc W → Pc W → Prop where
  | claimEnd (started i) : Reads count now c (.claimLoad started i) .idle
  | claimFree (started i) : Reads count now c (.claimLoad started i) (.claimStamp started i)
  | claimNext (started i) : Reads count now c (.claimLoad started i) (.claimLoad started (i + 1))
  | claimLost (started i) : Reads count now c (.claimCas started i) (.claimLoad started (i + 1))
  | resetEnd (scan timeout i) : Reads count now c (.resetLoad scan timeout i) .idle
  | unstamped (scan timeout i) :
      Reads count now c (.resetLoad scan timeout i) (.resetCheck scan timeout i)
  | stamped (scan timeout i) (h : c.startedAtMs ≠ 0) :
      Reads count now c (.resetLoad scan timeout i) (.resetNow scan timeout i c.startedAtMs)
  | claimed (scan timeout i) (h : c.status = .claimed) :
      Reads count now c (.resetCheck scan timeout i) (.resetCas scan timeout i 0)
  | unclaimed (scan timeout i) :
      Reads count now c (.resetCheck scan timeout i) (resetNext scan timeout i)
  | inTime (scan timeout i started) :
      Reads count now c (.resetNow scan timeout i started) (resetNext scan timeout i)
  | expired (scan timeout i started) (h : ¬ now - started < timeout) :
      Reads count now c (.resetNow scan timeout i started) (.resetCas scan timeout i started)
  | resetLost (scan timeout i started) :
      Reads count now c (.resetCas scan timeout i started) (resetNext scan timeout i)
  | releaseEnd (v i) : Reads count now c (.releaseLoad v i) .idle
  | owned (v i) (h : c.claimerId = some v) :
      Reads count now c (.releaseLoad v i) (.releaseOwner v i)
  | notOwned (v i) (h : c.claimerId ≠ some v) :
      Reads count now c (.releaseLoad v i) (.releaseLoad v (i + 1))

/-- What an access can do, one constructor for each access that writes. -/
inductive AccessStep (count : Nat) (w : W) (now : Nat) (c : ChunkSlot W) :
    Pc W → ChunkSlot W → Pc W → Prop where
  | reads {pc pc'} (h : Reads count now c pc pc') : AccessStep count w now c pc c pc'
  | claimStamp (started i) : AccessStep count w now c (.claimStamp started i)
      { c with startedAtMs := started } (.claimCas started i)
  | claimCas (started i) (h : c.status = .pending) : AccessStep count w now c (.claimCas started i)
      { c with status := .claimed, claim := some ⟨w, now, false, false, false⟩ } (.claimOwner now i)
  | claimOwner (since i) : AccessStep count w now c (.claimOwner since i)
      { c with claimerId := some w, claim := c.claim.map (Claim.return w) } (.working since i)
  | markFinished (since i ok finished) :
      AccessStep count w now c (.markFinished since i ok finished)
        { c with finishedAtMs := finished } (.markStatus since i ok)
  | markStatus (since i ok) : AccessStep count w now c (.markStatus since i ok)
      { c with
        status := markedStatus ok
        claim := c.claim.map fun cl => { cl with completed := true } } .idle
  | resetCas (scan timeout i started) (h : c.status = .claimed) :
      AccessStep count w now c (.resetCas scan timeout i started)
        { c with status := .pending, claim := none } (.resetOwner scan timeout i)
  | resetOwner (scan timeout i) : AccessStep count w now c (.resetOwner scan timeout i)
      { c with claimerId := none } (.resetStamp scan timeout i)
  | resetStamp (scan timeout i) : AccessStep count w now c (.resetStamp scan timeout i)
      { c with startedAtMs := 0 } (resetNext scan timeout i)
  | releaseOwner (v i) : AccessStep count w now c (.releaseOwner v i)
      { c with
        claimerId := none
        claim := c.claim.map fun cl => { cl with releasing := true } } (.releaseStarted v i)
  | releaseStarted (v i) : AccessStep count w now c (.releaseStarted v i)
      { c with startedAtMs := 0 } (.releaseFinished v i)
  | releaseFinished (v i) : AccessStep count w now c (.releaseFinished v i)
      { c with finishedAtMs := 0 } (.releaseStatus v i)
  | releaseStatus (v i) : AccessStep count w now c (.releaseStatus v i)
      { c with status := .pending, claim := none } (.releaseLoad v (i + 1))

theorem access_step {count now : Nat} {w : W} {c c' : ChunkSlot W} {pc pc' : Pc W}
    (h : access count w now c pc = some (c', pc')) : AccessStep count w now c pc c' pc' := by
  cases pc with
  | idle | working _ _ => simp [access] at h
  | claimLoad _ _ | resetLoad _ _ _ | releaseLoad _ _ | resetCheck _ _ _ | resetNow _ _ _ _ =>
      simp only [access] at h
      split_ifs at h <;> obtain ⟨rfl, rfl⟩ := by simpa using h
      all_goals exact .reads (by constructor <;> assumption)
  | claimCas started i =>
      simp only [access] at h
      split_ifs at h with hpending <;> obtain ⟨rfl, rfl⟩ := by simpa using h
      · exact .claimCas started i hpending
      · exact .reads (.claimLost started i)
  | resetCas scan timeout i started =>
      simp only [access] at h
      split_ifs at h with hclaimed <;> obtain ⟨rfl, rfl⟩ := by simpa using h
      · exact .resetCas scan timeout i started hclaimed
      · exact .reads (.resetLost scan timeout i started)
  | _ =>
      obtain ⟨rfl, rfl⟩ := by simpa [access] using h
      constructor

/-- The queue operations a thread can enter. -/
inductive QueueOp (W : Type) where
  | claimNext
  | mark (ok : Bool)
  | resetStale (idx timeout : Nat)
  | resetAllStale (timeout : Nat)
  | releaseWorkerChunks (v : W)
deriving DecidableEq

/-- Entering an operation: an idle thread may claim, recover or release; a thread marks only the
    chunk it works on. The clock is read here, before the first access. -/
def enter (count now : Nat) : QueueOp W → Pc W → Option (Pc W)
  | .claimNext, .idle => some (.claimLoad now 0)
  | .mark ok, .working since i =>
      if count ≤ i then some .idle else some (.markFinished since i ok now)
  | .resetStale idx timeout, .idle => some (.resetLoad false timeout idx)
  | .resetAllStale timeout, .idle => some (.resetLoad true timeout 0)
  | .releaseWorkerChunks v, .idle => some (.releaseLoad v 0)
  | _, _ => none

/-- A thread's move: enter an operation, or perform the next access of the current one. -/
inductive Move (W : Type) where
  | enter (op : QueueOp W)
  | access
deriving DecidableEq

/-- The environment lets time pass, or a thread die. -/
inductive Event (W : Type) where
  | tick (ms : Nat)
  | die (w : W)
deriving DecidableEq

/-- The threads of the queue and what they share. -/
abbrev QueueWorld (W : Type) := World W (Shared W) (Pc W)

/-- The steps of the queue's program. -/
abbrev QueueLabel (W : Type) := Label W (Event W) (Move W)

/-- The program of the queue with `count` chunks. -/
def chunkQueue (W : Type) [DecidableEq W] (count : Nat) :
    Program W (Event W) (Move W) (Shared W) (Pc W) where
  act w a q pc :=
    if q.alive w then
      match a with
      | .enter op => (enter count q.nowMs op pc).map fun pc' => (q, pc')
      | .access =>
          (access count w q.nowMs (q.chunks pc.slot) pc).map fun r =>
            (q.setChunk pc.slot r.1, r.2)
    else none
  env
    | .tick ms, q => { q with nowMs := q.nowMs + ms }
    | .die w, q => { q with alive := Function.update q.alive w false }

/-- What a thread can do: it is alive, and either enters an operation, which leaves the memory
    alone, or performs one access to one slot. -/
theorem chunkQueue_act {count : Nat} {w : W} {a : Move W} {q : Shared W} {pc : Pc W}
    {r : Shared W × Pc W} (h : (chunkQueue W count).act w a q pc = some r) :
    q.alive w = true ∧
      ((∃ op pc', a = .enter op ∧ enter count q.nowMs op pc = some pc' ∧ r = (q, pc')) ∨
        (∃ c pc', a = .access ∧ access count w q.nowMs (q.chunks pc.slot) pc = some (c, pc') ∧
          r = (q.setChunk pc.slot c, pc'))) := by
  simp only [chunkQueue] at h
  split at h
  · next halive =>
      refine ⟨halive, ?_⟩
      cases a with
      | enter op =>
          simp only [Option.map_eq_some_iff] at h
          obtain ⟨pc', hpc, rfl⟩ := h
          exact Or.inl ⟨op, pc', rfl, hpc, rfl⟩
      | access =>
          simp only [Option.map_eq_some_iff] at h
          obtain ⟨⟨c, pc'⟩, hacc, rfl⟩ := h
          exact Or.inr ⟨c, pc', rfl, hacc, rfl⟩
  · exact absurd h (by simp)

/-- `init()`: every slot PENDING and unclaimed. -/
def ChunkSlot.init (W : Type) : ChunkSlot W := ⟨.pending, none, 0, 0, none⟩

/-- A fresh queue at clock time `now`, every thread alive and idle. -/
def freshQueue (W : Type) (now : Nat) : QueueWorld W :=
  ⟨⟨fun _ => ChunkSlot.init W, now, fun _ => true⟩, fun _ => .idle⟩

end CodeScope.Scheduler
