import Mathlib

/-! # Worker results and the completeness verdicts

What the scheduler knows about a worker process is one `ModuleResult`. Two different predicates read
it: `workerSucceeded` decides whether the worker counts as failed, and `mergeable` whether its
database is handed to the merge. The verdicts of the two schedulers are computed from both. -/

namespace CodeScope.Scheduler

/-- What the scheduler reads from the result JSON of a worker (`ok` is true only for an explicit
    `"ok": true`; missing counts are 0). -/
structure WorkerJson where
  ok : Bool
  totalNodes : Nat
  totalEdges : Nat
  filesIndexed : Nat
  error : Option String
deriving DecidableEq

/-- How a worker process, or the thread that runs it, ended. -/
inductive WorkerExit where
  | spawnFailed (e : String)
  | waitFailed (e : String)
  | timedOut
  | panicked
  | exited (code : Option Int) (parsed : Option WorkerJson)
deriving DecidableEq

/-- Result of running one worker. -/
structure ModuleResult where
  name : String
  exitCode : Int
  totalNodes : Nat
  totalEdges : Nat
  filesIndexed : Nat
  dbPath : String
  projectId : Nat
  error : Option String
deriving DecidableEq

/-- The name the discovery gives the files directly in the project directory. -/
def rootModuleName : String := "."

/-- The database of a module's worker. -/
def moduleDb (dbPrefix moduleName : String) : String :=
  dbPrefix ++ "_" ++ (if moduleName = rootModuleName then "root" else moduleName) ++ ".db"

/-- The database of a chunk worker. -/
def chunkDb (dbPrefix : String) (workerId : Nat) : String :=
  dbPrefix ++ "_chunk_" ++ toString workerId ++ ".db"

/-- The database of the replacement worker. -/
def retryDb (dbPrefix : String) : String := dbPrefix ++ "_chunk_retry.db"

/-- The `error` field of a process that ended: `None` only for exit 0 with a parsed `ok: true`. -/
def exitError (method : String) (exitCode : Int) (parsed : Option WorkerJson) : Option String :=
  if exitCode = 0 ∧ parsed.any (·.ok) then none
  else
    let engineMsg := match parsed.bind (·.error) with
      | some s => " engine_error=" ++ s
      | none => ""
    some ("exit=" ++ toString exitCode ++ engineMsg ++ " [module=scheduler, method=" ++ method ++
      "]")

/-- The result of a process that ended. -/
def exitedResult (name dbPath method : String) (projectId : Nat) (code : Option Int)
    (parsed : Option WorkerJson) : ModuleResult :=
  let exitCode := code.getD (-4)
  { name, dbPath, projectId, exitCode
    totalNodes := (parsed.map (·.totalNodes)).getD 0
    totalEdges := (parsed.map (·.totalEdges)).getD 0
    filesIndexed := (parsed.map (·.filesIndexed)).getD 0
    error := exitError method exitCode parsed }

/-- The result of a worker that never delivered one. -/
def failedResult (name dbPath : String) (projectId : Nat) (exitCode : Int) (error : String) :
    ModuleResult :=
  { name, dbPath, projectId, exitCode, totalNodes := 0, totalEdges := 0, filesIndexed := 0
    error := some error }

/-- `run_module_worker`, with the thread that catches its panics. -/
def runModuleWorker (dbPrefix moduleName : String) (projectId : Nat) : WorkerExit → ModuleResult
  | .spawnFailed e => failedResult moduleName (moduleDb dbPrefix moduleName) projectId (-1)
      ("spawn failed: " ++ e ++ " [module=scheduler, method=run_module_worker]")
  | .timedOut => failedResult moduleName (moduleDb dbPrefix moduleName) projectId 124
      "worker timed out after 600s [module=scheduler, method=run_module_worker]"
  | .waitFailed e => failedResult moduleName (moduleDb dbPrefix moduleName) projectId (-2)
      ("try_wait failed: " ++ e ++ " [module=scheduler, method=run_module_worker]")
  | .panicked => failedResult moduleName "" projectId (-5)
      "worker panicked [module=scheduler, method=index_parallel]"
  | .exited code parsed =>
      exitedResult moduleName (moduleDb dbPrefix moduleName) "run_module_worker" projectId code
        parsed

/-- `run_chunk_worker` for worker `workerId` on database `workerDb`. -/
def runChunkWorker (workerDb : String) (workerId : Nat) : WorkerExit → ModuleResult
  | .spawnFailed e => failedResult ("chunk-worker-" ++ toString workerId) workerDb (workerId + 1)
      (-1) ("spawn failed: " ++ e ++ " [module=scheduler, method=run_chunk_worker]")
  | .timedOut => failedResult ("chunk-worker-" ++ toString workerId) workerDb (workerId + 1) (-4)
      "timeout after 600s [module=scheduler, method=run_chunk_worker]"
  | .waitFailed e => failedResult ("chunk-worker-" ++ toString workerId) workerDb (workerId + 1)
      (-3) ("wait failed: " ++ e ++ " [module=scheduler, method=run_chunk_worker]")
  | .panicked => failedResult ("chunk-worker-" ++ toString workerId) workerDb (workerId + 1) (-5)
      "worker panicked [module=scheduler, method=index_parallel_chunked]"
  | .exited code parsed =>
      exitedResult ("chunk-worker-" ++ toString workerId) workerDb "run_chunk_worker"
        (workerId + 1) code parsed

/-! ## The predicates over a result -/

/-- Whether one worker did its job. -/
def workerSucceeded (r : ModuleResult) : Bool := r.exitCode = 0 ∧ r.error = none

/-- The filter in front of the merge (and of the quarantine). -/
def mergeable (r : ModuleResult) : Bool :=
  r.exitCode = 0 ∧ r.error = none ∧ (r.totalNodes > 0 ∨ r.filesIndexed = 0)

/-- The worker indexed files and found no symbol in them. -/
def noSymbols (r : ModuleResult) : Prop := r.totalNodes = 0 ∧ r.filesIndexed ≠ 0

theorem mergeable_iff (r : ModuleResult) :
    mergeable r = true ↔ workerSucceeded r = true ∧ ¬ noSymbols r := by
  simp only [mergeable, workerSucceeded, noSymbols, decide_eq_true_eq]
  constructor
  · rintro ⟨hexit, herror, hfiles⟩
    exact ⟨⟨hexit, herror⟩, by omega⟩
  · rintro ⟨⟨hexit, herror⟩, hfiles⟩
    exact ⟨hexit, herror, by omega⟩

theorem failedResult_not_succeeded (name dbPath : String) (projectId : Nat) (exitCode : Int)
    (error : String) : workerSucceeded (failedResult name dbPath projectId exitCode error) = false
    := by
  simp [workerSucceeded, failedResult]

theorem runModuleWorker_dbPath {dbPrefix name : String} {projectId : Nat} {e : WorkerExit}
    (h : workerSucceeded (runModuleWorker dbPrefix name projectId e) = true) :
    (runModuleWorker dbPrefix name projectId e).dbPath = moduleDb dbPrefix name := by
  cases e with
  | panicked => simp [runModuleWorker, failedResult_not_succeeded] at h
  | _ => rfl

theorem runModuleWorker_name (dbPrefix name : String) (projectId : Nat) (e : WorkerExit) :
    (runModuleWorker dbPrefix name projectId e).name = name := by
  cases e <;> rfl

/-- The databases handed to the merge. -/
def mergeList (results : List ModuleResult) : List String :=
  (results.filter mergeable).map (·.dbPath)

theorem mem_mergeList {results : List ModuleResult} {r : ModuleResult} (hr : r ∈ results)
    (hsucceeded : workerSucceeded r = true) (hsymbols : ¬ noSymbols r) :
    r.dbPath ∈ mergeList results :=
  List.mem_map_of_mem (List.mem_filter.mpr ⟨hr, (mergeable_iff r).mpr ⟨hsucceeded, hsymbols⟩⟩)

/-- Whether the merge ran and succeeded; with no database there is nothing to merge. -/
def merged (mergeModuleDbs : List String → Bool) (results : List ModuleResult) : Bool :=
  if (mergeList results).isEmpty then false else mergeModuleDbs (mergeList results)

/-! ## The static scheduler -/

def runComplete (failedWorkers : Nat) (merged : Bool) : Bool := failedWorkers = 0 ∧ merged

def runProducedIndex (totalNodes totalFilesIndexed : Nat) : Bool :=
  totalNodes > 0 ∨ totalFilesIndexed = 0

/-- What lies outside the scheduler of a static run: how each module's worker ends, which files the
    quarantine search blames, how the retry ends, and whether the merge succeeds. -/
structure StaticEnv where
  dbPrefix : String
  exit : String → WorkerExit
  quarantineModule : String → List String
  retryExit : String → WorkerExit
  mergeModuleDbs : List String → Bool

/-- Phase 4 for one module: keep the result, or retry with the quarantined files excluded. -/
def quarantineRound (env : StaticEnv) (r : ModuleResult) : ModuleResult :=
  if mergeable r then r
  else if (env.quarantineModule r.name).isEmpty then r
  else runModuleWorker env.dbPrefix r.name r.projectId (env.retryExit r.name)

/-- Phase 3: the module at position `idx` runs under project id `idx + 1`. -/
def dispatch (env : StaticEnv) (modules : List String) : List ModuleResult :=
  modules.mapIdx fun idx name => runModuleWorker env.dbPrefix name (idx + 1) (env.exit name)

/-- Phases 4 to 6 over the results in the order the workers finished. -/
def finalResults (env : StaticEnv) (results : List ModuleResult) : List ModuleResult :=
  results.map (quarantineRound env)

/-- The verdict of `index_parallel`. -/
def indexParallelComplete (env : StaticEnv) (results : List ModuleResult) : Bool :=
  let final := finalResults env results
  let success := final.countP workerSucceeded
  let fail := final.length - success
  runComplete fail (merged env.mergeModuleDbs final) &&
    runProducedIndex ((final.map (·.totalNodes)).sum) ((final.map (·.filesIndexed)).sum)

theorem indexParallelComplete_succeeded {env : StaticEnv} {results : List ModuleResult}
    (h : indexParallelComplete env results = true) :
    ∀ r ∈ finalResults env results, workerSucceeded r = true := by
  simp only [indexParallelComplete, runComplete, Bool.and_eq_true, decide_eq_true_eq] at h
  have hle := List.countP_le_length (p := workerSucceeded) (l := finalResults env results)
  exact List.countP_eq_length.mp (by omega)

end CodeScope.Scheduler
