import CodeScope.Scheduler.Ownership
import CodeScope.Scheduler.WorkerResult

/-! # The chunked scheduler

A run has a first round, in which the chunk workers drain the queue concurrently; then, if workers
failed, their chunks are released by the scheduler alone and one replacement worker drains the
queue again. `ChunkedRun` pairs these rounds, as runs of the queue's program, with the ways the
worker processes ended; the verdict is computed from both. What the queue records as a chunk's
owner ties the two: the claimer field is only ever written by the threads of a round, and the
release clears every failed worker from it. -/

namespace CodeScope.Scheduler

open Interleaving

/-! ## The scheduler's own accesses to the queue -/

section Release

variable {W : Type} [DecidableEq W]

/-- One released slot. -/
def ChunkSlot.release (c : ChunkSlot W) : ChunkSlot W :=
  { c with status := .pending, claimerId := none, startedAtMs := 0, finishedAtMs := 0, claim := none }

/-- `release_worker_chunks(v)` with nobody else running. -/
def releaseWorkerChunks (count : Nat) (v : W) (chunks : Nat → ChunkSlot W) : Nat → ChunkSlot W :=
  fun i => if i < count ∧ (chunks i).claimerId = some v then (chunks i).release else chunks i

theorem releaseWorkerChunks_succ (i : Nat) (v : W) (chunks : Nat → ChunkSlot W) :
    releaseWorkerChunks (i + 1) v chunks =
      if (chunks i).claimerId = some v then
        Function.update (releaseWorkerChunks i v chunks) i (chunks i).release
      else releaseWorkerChunks i v chunks := by
  funext j
  by_cases hj : j = i
  · subst hj
    split
    · next hv => simp [releaseWorkerChunks, hv]
    · next hv => simp [releaseWorkerChunks, hv]
  · have hlt : j < i + 1 ↔ j < i := by omega
    split
    · simp [releaseWorkerChunks, Function.update_of_ne hj, hlt]
    · simp [releaseWorkerChunks, hlt]

/-- Only thread `w` moves, one access at a time. -/
def Alone (w : W) (_ : QueueWorld W) (l : QueueLabel W) : Prop := l = .thread w .access

variable {count : Nat} {chunks : Nat → ChunkSlot W}

theorem reaches_access {w : W} {s : QueueWorld W} {q : Shared W} {locals : W → Pc W} {pc : Pc W}
    (c' : ChunkSlot W) (pc' : Pc W)
    (hrun : (chunkQueue W count).Reaches (Alone w) s ⟨q, Function.update locals w pc⟩)
    (halive : q.alive w = true) (h : access count w q.nowMs (q.chunks pc.slot) pc = some (c', pc')) :
    (chunkQueue W count).Reaches (Alone w) s
      ⟨q.setChunk pc.slot c', Function.update locals w pc'⟩ := by
  refine hrun.step rfl ?_
  simp [Program.next, chunkQueue, halive, h, World.put]

/-- The loop of a release that runs alone goes through the slots as `releaseWorkerChunks` says. -/
theorem release_loop {w : W} (v : W) {q : Shared W} (locals : W → Pc W) (halive : q.alive w = true)
    {i : Nat} (hi : i ≤ count) :
    (chunkQueue W count).Reaches (Alone w) ⟨q, Function.update locals w (.releaseLoad v 0)⟩
      ⟨{ q with chunks := releaseWorkerChunks i v q.chunks },
        Function.update locals w (.releaseLoad v i)⟩ := by
  induction i with
  | zero =>
      have hnone : releaseWorkerChunks 0 v q.chunks = q.chunks := by
        funext j
        simp [releaseWorkerChunks]
      rw [hnone]
      exact .refl
  | succ i ih =>
      have hsame : releaseWorkerChunks i v q.chunks i = q.chunks i := by
        simp [releaseWorkerChunks]
      have hcount : ¬ count ≤ i := by omega
      rw [releaseWorkerChunks_succ]
      by_cases hv : (q.chunks i).claimerId = some v
      · rw [if_pos hv]
        -- load, owner, stamp, finish time and status of the slot
        have hload := reaches_access (q.chunks i) (.releaseOwner v i) (ih (by omega)) halive
          (by simp [access, hcount, Pc.slot, hsame, hv])
        have howner := reaches_access _ (.releaseStarted v i) hload halive rfl
        have hstamp := reaches_access _ (.releaseFinished v i) howner halive rfl
        have hfinish := reaches_access _ (.releaseStatus v i) hstamp halive rfl
        have hstatus := reaches_access _ (.releaseLoad v (i + 1)) hfinish halive rfl
        simpa [Pc.slot, Shared.setChunk, ChunkSlot.release] using hstatus
      · rw [if_neg hv]
        have hload := reaches_access (q.chunks i) (.releaseLoad v (i + 1)) (ih (by omega)) halive
          (by simp [access, hcount, Pc.slot, hsame, hv])
        have hput : Function.update (releaseWorkerChunks i v q.chunks) i (q.chunks i) =
            releaseWorkerChunks i v q.chunks := by
          rw [← hsame, Function.update_eq_self]
        simpa [Pc.slot, Shared.setChunk, hput] using hload

/-- Every failed worker's chunks are released in turn. -/
def releaseAll (count : Nat) (ids : List W) (chunks : Nat → ChunkSlot W) : Nat → ChunkSlot W :=
  ids.foldl (fun cs v => releaseWorkerChunks count v cs) chunks

theorem releaseWorkerChunks_claimer {v u : W} {i : Nat} (hi : i < count)
    (h : (releaseWorkerChunks count v chunks i).claimerId = some u) :
    (chunks i).claimerId = some u ∧ u ≠ v := by
  simp only [releaseWorkerChunks] at h
  split at h
  · simp [ChunkSlot.release] at h
  · next hne =>
      refine ⟨h, ?_⟩
      rintro rfl
      exact hne ⟨hi, h⟩

theorem releaseAll_claimer {ids : List W} {i : Nat} {u : W} (hi : i < count)
    (h : (releaseAll count ids chunks i).claimerId = some u) :
    (chunks i).claimerId = some u ∧ u ∉ ids := by
  induction ids generalizing chunks with
  | nil => exact ⟨h, by simp⟩
  | cons v rest ih =>
      obtain ⟨hbefore, hrest⟩ := ih h
      obtain ⟨hclaimer, hne⟩ := releaseWorkerChunks_claimer hi hbefore
      exact ⟨hclaimer, by simp [hne, hrest]⟩

theorem access_claimer {now : Nat} {w : W} {c c' : ChunkSlot W} {pc pc' : Pc W}
    (h : access count w now c pc = some (c', pc')) :
    c'.claimerId = c.claimerId ∨ c'.claimerId = none ∨ c'.claimerId = some w := by
  cases access_step h with
  | claimOwner _ _ => exact Or.inr (Or.inr rfl)
  | resetOwner _ _ _ | releaseOwner _ _ => exact Or.inr (Or.inl rfl)
  | _ => exact Or.inl rfl

/-- A step of a round in which only the workers in `p` touch the queue, and none of them releases
    chunks. -/
def InRound (p : W → Prop) (_ : QueueWorld W) : QueueLabel W → Prop
  | .env _ => True
  | .thread _ (.enter (.releaseWorkerChunks _)) => False
  | .thread w _ => p w

instance (p : W → Prop) [DecidablePred p] (s : QueueWorld W) :
    (l : QueueLabel W) → Decidable (InRound p s l)
  | .env _ => isTrue trivial
  | .thread _ (.enter (.releaseWorkerChunks _)) => isFalse id
  | .thread w (.enter .claimNext) | .thread w (.enter (.mark _)) => inferInstanceAs (Decidable (p w))
  | .thread w (.enter (.resetStale _ _)) => inferInstanceAs (Decidable (p w))
  | .thread w (.enter (.resetAllStale _)) => inferInstanceAs (Decidable (p w))
  | .thread w .access => inferInstanceAs (Decidable (p w))

omit [DecidableEq W] in
theorem InRound.worker {p : W → Prop} {s : QueueWorld W} {w : W} {m : Move W}
    (h : InRound p s (.thread w m)) : p w := by
  unfold InRound at h
  split at h
  all_goals first | exact h.elim | simp_all

/-- A chunk's owner after a round is its owner from before, or a worker of the round. -/
theorem round_claimer {p : W → Prop} {s t : QueueWorld W}
    (hrun : (chunkQueue W count).Reaches (InRound p) s t) {i : Nat} {u : W}
    (h : (t.shared.chunks i).claimerId = some u) :
    (s.shared.chunks i).claimerId = some u ∨ p u := by
  refine hrun.invariant (I := fun t => ∀ i u, (t.shared.chunks i).claimerId = some u →
    (s.shared.chunks i).claimerId = some u ∨ p u) (fun _ _ => Or.inl) ?_ i u h
  intro t l t' ih hround hnext i u hu
  cases l with
  | env e =>
      simp only [Program.next, Option.some.injEq] at hnext
      subst hnext
      cases e <;> exact ih i u hu
  | thread w m =>
      obtain ⟨r, hact, rfl⟩ := (chunkQueue W count).next_thread hnext
      obtain ⟨_, ⟨op, pc', _, _, rfl⟩ | ⟨c', pc', _, hacc, rfl⟩⟩ := chunkQueue_act hact
      · exact ih i u hu
      · by_cases hi : i = (t.locals w).slot
        · subst hi
          simp only [World.put_shared, Shared.setChunk_self] at hu
          rcases access_claimer hacc with hsame | hnone | hown
          · exact ih _ u (hsame.symm.trans hu)
          · simp [hnone] at hu
          · right
            obtain rfl : w = u := by simpa [hown] using hu
            exact hround.worker
        · rw [World.put_shared, Shared.setChunk_of_ne _ _ hi] at hu
          exact ih i u hu

def isComplete (count : Nat) (chunks : Nat → ChunkSlot W) : Bool :=
  (List.range count).all fun i => (chunks i).status = .done || (chunks i).status = .failed

def failedCount (count : Nat) (chunks : Nat → ChunkSlot W) : Nat :=
  (List.range count).countP fun i => (chunks i).status = .failed

omit [DecidableEq W] in
theorem done_of_complete (hcomplete : isComplete count chunks = true)
    (hfailed : failedCount count chunks = 0) {i : Nat} (hi : i < count) :
    (chunks i).status = .done := by
  have hmem : i ∈ List.range count := List.mem_range.mpr hi
  have hterminal := List.all_eq_true.mp hcomplete i hmem
  have hnot := List.countP_eq_zero.mp hfailed i hmem
  simp only [Bool.or_eq_true, decide_eq_true_eq] at hterminal hnot
  rcases hterminal with hdone | hfail
  · exact hdone
  · exact absurd hfail hnot

end Release

/-! ## A chunked run -/

def chunkedRunComplete (merged retryWorkerAttempted retryWorkerFailed queueComplete : Bool)
    (failedChunks : Nat) : Bool :=
  merged && queueComplete && failedChunks = 0 && !(retryWorkerAttempted && retryWorkerFailed)

/-- The replacement worker's start: the released queue, nobody else running. -/
def retryStart (totalWorkers chunkCount : Nat) (q : Shared Nat) (failed : List Nat) :
    QueueWorld Nat :=
  ⟨{ chunks := releaseAll chunkCount failed q.chunks, nowMs := q.nowMs
     alive := fun w => w = totalWorkers }, fun _ => .idle⟩

/-- The result of the worker with the given id; the id `totalWorkers` is the replacement's. -/
def chunkResult (dbPrefix : String) (totalWorkers : Nat) (exit : Nat → WorkerExit) (w : Nat) :
    ModuleResult :=
  runChunkWorker (if w = totalWorkers then retryDb dbPrefix else chunkDb dbPrefix w) w (exit w)

/-- The first-round workers that failed, in the order they finished. -/
def failedWorkerIds (dbPrefix : String) (totalWorkers : Nat) (exit : Nat → WorkerExit)
    (order : List Nat) : List Nat :=
  order.filter fun w => !workerSucceeded (chunkResult dbPrefix totalWorkers exit w)

/-- One run of the chunked scheduler: how the worker processes ended and in which order, and what
    the two rounds did to the queue. -/
structure ChunkedRun where
  dbPrefix : String
  totalWorkers : Nat
  chunkCount : Nat
  startMs : Nat
  exit : Nat → WorkerExit
  mergeModuleDbs : List String → Bool
  order : List Nat
  order_perm : order.Perm (List.range totalWorkers)
  firstRound : QueueWorld Nat
  first_run : (chunkQueue Nat chunkCount).Reaches (InRound (· < totalWorkers))
    (freshQueue Nat startMs) firstRound
  retryRound : QueueWorld Nat
  retry_run : (chunkQueue Nat chunkCount).Reaches (InRound (· = totalWorkers))
    (retryStart totalWorkers chunkCount firstRound.shared
      (failedWorkerIds dbPrefix totalWorkers exit order)) retryRound

namespace ChunkedRun

variable (run : ChunkedRun)

def result (w : Nat) : ModuleResult := chunkResult run.dbPrefix run.totalWorkers run.exit w

def failed : List Nat := failedWorkerIds run.dbPrefix run.totalWorkers run.exit run.order

def released : Nat → ChunkSlot Nat :=
  releaseAll run.chunkCount run.failed run.firstRound.shared.chunks

/-- Workers failed and the queue, not the release count, says that work is missing. -/
def retryAttempted : Bool := !run.failed.isEmpty && !isComplete run.chunkCount run.released

/-- The queue when the verdict is computed. -/
def finalQueue : Nat → ChunkSlot Nat :=
  if run.retryAttempted then run.retryRound.shared.chunks else run.released

/-- The results the report is computed from. -/
def results : List ModuleResult :=
  run.order.map run.result ++ if run.retryAttempted then [run.result run.totalWorkers] else []

/-- The verdict of `index_parallel_chunked`. -/
def complete : Bool :=
  chunkedRunComplete (merged run.mergeModuleDbs run.results) run.retryAttempted
    (!workerSucceeded (run.result run.totalWorkers)) (isComplete run.chunkCount run.finalQueue)
    (failedCount run.chunkCount run.finalQueue)

variable {run}

theorem mem_failed {w : Nat} : w ∈ run.failed ↔
    w < run.totalWorkers ∧ workerSucceeded (run.result w) = false := by
  simp [failed, failedWorkerIds, result, run.order_perm.mem_iff]

/-- The owner the first round leaves on a chunk, once the failed workers' chunks are released, is a
    first-round worker that succeeded. -/
theorem released_owner {i w : Nat} (hi : i < run.chunkCount)
    (h : (run.released i).claimerId = some w) :
    w < run.totalWorkers ∧ workerSucceeded (run.result w) = true := by
  obtain ⟨hclaimer, hnot⟩ := releaseAll_claimer hi h
  rcases round_claimer run.first_run hclaimer with hfresh | hworker
  · simp [freshQueue, ChunkSlot.init] at hfresh
  · refine ⟨hworker, ?_⟩
    by_contra hfail
    exact hnot (mem_failed.mpr ⟨hworker, by simpa using hfail⟩)

/-- The recorded owner of a chunk in the final queue is a worker of the run whose result counts,
    and it succeeded when the run is complete. -/
theorem final_owner (hcomplete : run.complete = true) {i w : Nat} (hi : i < run.chunkCount)
    (h : (run.finalQueue i).claimerId = some w) :
    run.result w ∈ run.results ∧ workerSucceeded (run.result w) = true := by
  have hfirst : ∀ v, v < run.totalWorkers → run.result v ∈ run.results := by
    intro v hv
    refine List.mem_append_left _ (List.mem_map_of_mem ?_)
    exact run.order_perm.mem_iff.mpr (List.mem_range.mpr hv)
  simp only [complete, chunkedRunComplete, Bool.and_eq_true, Bool.not_eq_true',
    Bool.and_eq_false_iff] at hcomplete
  cases hretry : run.retryAttempted with
  | false =>
      simp only [finalQueue, hretry, Bool.false_eq_true, if_false] at h
      obtain ⟨hw, hsucceeded⟩ := released_owner hi h
      exact ⟨hfirst w hw, hsucceeded⟩
  | true =>
      simp only [finalQueue, hretry, if_true] at h
      rcases round_claimer run.retry_run h with hbefore | rfl
      · obtain ⟨hw, hsucceeded⟩ := released_owner hi hbefore
        exact ⟨hfirst w hw, hsucceeded⟩
      · refine ⟨by simp [results, hretry], ?_⟩
        rcases hcomplete.2 with hnone | hok
        · exact absurd (hretry.symm.trans hnone) (by simp)
        · simpa using hok

end ChunkedRun

end CodeScope.Scheduler
