import Mathlib.Data.List.Sort
import CodeScope.Library.Slices
import CodeScope.Library.Text

/-! # The chunk planner

`plan_chunks` groups the files of a project by their directory, goes through the groups from the
largest to the smallest and cuts each into chunks: a chunk is a range of indices of the file list. It
ends where the next file of the group is not the next file of the list, where one more file would
exceed the ceiling, and where the target size is reached. The chunks go into the shared queue, and a
worker takes the slice of its own copy of the list.

Sizes are 64-bit and queue fields 32-bit; additions wrap, as in the release build. -/

namespace CodeScope.Scheduler

open Text (Str str)
open Slices (slice)

/-- Group by the first two path components. -/
def clusterDepth : ℕ := 2

/-- The slots of the shared queue. -/
def maxChunks : ℕ := 256

structure FileEntry where
  path : Str
  size : UInt64
deriving DecidableEq

structure Chunk where
  fileStart : ℕ
  fileCount : ℕ
  totalBytes : UInt64
  moduleId : UInt32
  dirPrefix : Str
deriving DecidableEq

/-- The order in which a hash map hands out its keys. -/
structure HashOrder where
  order : List Str → List Str
  perm : ∀ keys, (order keys).Perm keys

/-! ## Clusters -/

def dirPrefix (path : Str) (depth : ℕ) : Str :=
  if '/' ∉ path then str "/"
  else
    let parts := Text.segments '/' path
    let components := if 2 ≤ parts.length then parts.dropLast else parts
    let take := min depth components.length
    if take = 0 then str "/" else List.intercalate ['/'] (components.take take)

/-- The files of one directory. -/
def cluster (files : List FileEntry) (depth : ℕ) (dir : Str) : List FileEntry :=
  files.filter fun f => dirPrefix f.path depth = dir

/-- The groups, largest first. -/
def groupByPrefix (hash : HashOrder) (files : List FileEntry) (depth : ℕ) :
    List (Str × List FileEntry) :=
  let dirs := hash.order (files.map fun f => dirPrefix f.path depth).dedup
  let groups := dirs.map fun dir => (dir, cluster files depth dir)
  (groups.insertionSort fun a b => (a.2.map (·.size)).sum ≤ (b.2.map (·.size)).sum).reverse

/-! ## Cutting a cluster -/

/-- `path_to_idx`: a later entry of the list overwrites an earlier one of the same path. -/
def pathToIdx (files : List FileEntry) (path : Str) : Option ℕ :=
  (files.zipIdx.reverse.find? fun f => f.1.path = path).map (·.2)

section Cut

variable (idx : FileEntry → ℕ) (targetBytes maxBytes : UInt64)

/-- The inner loop, from an entry on: the entries the chunk takes and its bytes. `last` is the index
    of the entry before, when the chunk has one. -/
def takeChunk : Option ℕ → UInt64 → List FileEntry → ℕ × UInt64
  | _, bytes, [] => (0, bytes)
  | last, bytes, entry :: rest =>
    -- a gap, then the ceiling; neither stops a chunk that is still empty
    if last.any fun i => idx entry ≠ i + 1 then (0, bytes)
    else if last.isSome && bytes + entry.size > maxBytes then (0, bytes)
    else if bytes + entry.size ≥ targetBytes then (1, bytes + entry.size)
    else
      let taken := takeChunk (some (idx entry)) (bytes + entry.size) rest
      (taken.1 + 1, taken.2)

theorem takeChunk_pos (entry : FileEntry) (rest : List FileEntry) :
    0 < (takeChunk idx targetBytes maxBytes none 0 (entry :: rest)).1 := by
  rw [takeChunk, if_neg (by simp), if_neg (by simp)]
  split
  · exact Nat.one_pos
  · exact Nat.succ_pos _

/-- The outer loop over the entries of one directory. -/
def cutCluster (dir : Str) : List FileEntry → List Chunk
  | [] => []
  | entry :: rest =>
    let taken := takeChunk idx targetBytes maxBytes none 0 (entry :: rest)
    ⟨idx entry, taken.1, taken.2, 0, dir⟩ :: cutCluster dir ((entry :: rest).drop taken.1)
termination_by entries => entries.length
decreasing_by
  have hpos := takeChunk_pos idx targetBytes maxBytes entry rest
  rw [List.length_drop, List.length_cons]
  omega

end Cut

/-- `None` stands for the panic of an assertion: no file, or bounds out of order. -/
def planChunks (hash : HashOrder) (files : List FileEntry) (targetBytes maxBytes : UInt64) :
    Option (List Chunk) :=
  if files = [] ∨ targetBytes = 0 ∨ maxBytes < targetBytes then none
  else
    -- every entry's path is a key of the map, so the default is never read
    let idx (f : FileEntry) : ℕ := (pathToIdx files f.path).getD (2 ^ 64 - 1)
    some ((groupByPrefix hash files clusterDepth).flatMap fun group =>
      cutCluster idx targetBytes maxBytes group.1
        (group.2.insertionSort fun a b => idx a ≤ idx b))

/-! ## The queue and the workers -/

/-- What a queue slot says about its files. -/
structure PlannedRange where
  fileStart : UInt32
  fileCount : UInt32

/-- A plan too long for the queue is refused, as is an empty one. -/
def fillQueue (chunks : List Chunk) : Option (List PlannedRange) :=
  if maxChunks < chunks.length ∨ chunks = [] then none
  else some (chunks.map fun ch => ⟨.ofNat ch.fileStart, .ofNat ch.fileCount⟩)

/-- The files a worker indexes for a slot. -/
def workerFiles (allPaths : List Str) (range : PlannedRange) : List Str :=
  let start := range.fileStart.toNat
  let count := range.fileCount.toNat
  if count = 0 ∨ allPaths.length ≤ start then []
  else slice start (min (start + count) allPaths.length - start) allPaths

end CodeScope.Scheduler
