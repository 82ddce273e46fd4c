import CodeScope.Library.PackedWords
import CodeScope.Library.Runs

/-! # The packed adjacency

`GraphStore::buildCSR` packs the CALLS relations of a project into one BLOB per caller (`adjacency`)
and one per callee (`adjacency_rev`); `getCalleeIds` and `getCallerIds` read them back. Each SQL
statement may fail, by the faults of a build. Ids of rows are not negative as `INTEGER`s; the ids
the readers take and return are `uint64_t`s. -/

namespace CodeScope.Store

/-! ## Tables -/

/-- A row of `relation`. -/
structure RelationRow where
  project : Nat
  source : Nat
  target : Nat
  type : Int
  source_lt : source < 2 ^ 63
  target_lt : target < 2 ^ 63

/-- A row of `adjacency` or `adjacency_rev`: its primary key and the BLOB, or NULL. -/
structure AdjacencyRow where
  id : Nat
  project : Nat
  blob : Option (List UInt8)
deriving DecidableEq

structure GraphDb where
  relations : List RelationRow
  /-- `project_id` of the entity with an id. -/
  entityProject : Int → Option Nat
  adjacency : List AdjacencyRow
  adjacencyRev : List AdjacencyRow

def kCallType : Int := 1

/-! ## Binding a BLOB -/

/-- `SQLITE_MAX_LENGTH` -/
def kMaxLength : Nat := 1000000000

/-- `static_cast<int>` of a size. -/
def toInt (n : Nat) : Int := ((n + 2 ^ 31) % 2 ^ 32 : Nat) - 2 ^ 31

/-- The length of a text of unknown size: up to the first pair of zero bytes, or past the limit. -/
def scanText (limit : Nat) : List UInt8 → Nat → Nat
  | a :: b :: rest, n => if n ≤ limit ∧ (a ≠ 0 ∨ b ≠ 0) then scanText limit rest (n + 2) else n
  | _, n => n

/-- The bytes that are bound: a negative size stands for a text of unknown size. -/
def boundBytes (bytes : List UInt8) : Nat :=
  if toInt bytes.length < 0 then scanText kMaxLength bytes 0 else (toInt bytes.length).toNat

/-- `sqlite3_bind_blob` on a parameter that is NULL before: a value above the limit is refused and
    the parameter stays NULL. -/
def bindBlob (bytes : List UInt8) : Option (List UInt8) :=
  if kMaxLength < boundBytes bytes then none else some (bytes.take (boundBytes bytes))

/-! ## Packing groups -/

/-- The table under construction, the INSERTs executed and those that failed. -/
structure Inserts where
  table : List AdjacencyRow
  executed : Nat
  failedGroups : Nat

/-- One INSERT of a group, which fails by a fault or on the primary key. -/
def insertGroup (fails : Nat → Bool) (project : Nat) (out : Inserts) (group : Nat × List Nat) :
    Inserts :=
  let row : AdjacencyRow := ⟨group.1, project, bindBlob (PackedWords.pack 8 group.2)⟩
  if fails out.executed ∨ ∃ r ∈ out.table, r.id = row.id then
    { out with executed := out.executed + 1, failedGroups := out.failedGroups + 1 }
  else { out with table := out.table ++ [row], executed := out.executed + 1 }

/-- `current_src` and `buf` (`current_tgt` and `rev_buf`). -/
structure GroupLoop where
  current : Int
  buf : List Nat
  out : Inserts

/-- Flush the group that is open. -/
def flush (fails : Nat → Bool) (project : Nat) (s : GroupLoop) : GroupLoop :=
  if 0 ≤ s.current ∧ s.buf ≠ [] then
    { s with out := insertGroup fails project s.out (s.current.toNat, s.buf) }
  else s

/-- One row `(key, value)` of the SELECT. -/
def groupStep (fails : Nat → Bool) (project : Nat) (s : GroupLoop) (row : Nat × Nat) :
    GroupLoop :=
  if row.1 = row.2 then s
  else
    let s := if (row.1 : Int) ≠ s.current then
      { flush fails project s with current := row.1, buf := [] } else s
    { s with buf := s.buf ++ [row.2] }

/-- The loop over the rows, with the flush of the last group. -/
def packGroups (fails : Nat → Bool) (project : Nat) (table : List AdjacencyRow)
    (rows : List (Nat × Nat)) : Inserts :=
  (flush fails project (rows.foldl (groupStep fails project) ⟨-1, [], ⟨table, 0, 0⟩⟩)).out

/-! ## The build -/

/-- The statements of `buildCSR`, for the two directions. -/
inductive Statement where
  | savepoint
  | delete (forward : Bool)
  | prepareSelect (forward : Bool)
  | prepareInsert (forward : Bool)
  | step (forward : Bool) (i : Nat)
  | insert (forward : Bool) (i : Nat)
  | rollback
  | release
deriving DecidableEq

/-- Which statements of a build fail. -/
abbrev Faults := Statement → Bool

/-- The rows a SELECT yields: a failing `sqlite3_step` ends the loop as the last row does. -/
def readRows {ρ : Type} (fails : Nat → Bool) : Nat → List ρ → List ρ
  | _, [] => []
  | i, r :: rest => if fails i then [] else r :: readRows fails (i + 1) rest

theorem readRows_initial {ρ : Type} (fails : Nat → Bool) (i : Nat) (rows : List ρ) :
    readRows fails i rows <+: rows := by
  induction rows generalizing i with
  | nil => exact List.prefix_rfl
  | cons r rest ih =>
      rw [readRows]
      split_ifs
      · exact List.nil_prefix
      · exact (List.prefix_cons_inj r).mpr (ih (i + 1))

variable {fails : Nat → Bool}

theorem readRows_all {ρ : Type} (h : ∀ i, fails i = false) (i : Nat) (rows : List ρ) :
    readRows fails i rows = rows := by
  induction rows generalizing i with
  | nil => rfl
  | cons r rest ih => rw [readRows, if_neg (by rw [h]; simp), ih]

/-- The CALLS relations of a project as `(source, target)`. -/
def callRows (db : GraphDb) (project : Nat) : List (Nat × Nat) :=
  (db.relations.filter fun r => r.type = kCallType ∧ r.project = project).map
    fun r => (r.source, r.target)

/-- `SELECT source_id, target_id … ORDER BY source_id` -/
def selectForward (db : GraphDb) (project : Nat) : List (Nat × Nat) :=
  (callRows db project).mergeSort fun a b => a.1 ≤ b.1

/-- `SELECT target_id, source_id … ORDER BY target_id` -/
def selectReverse (db : GraphDb) (project : Nat) : List (Nat × Nat) :=
  ((callRows db project).map Prod.swap).mergeSort fun a b => a.1 ≤ b.1

/-- `DELETE … WHERE project_id=?`, whose failure is not checked. -/
def deleteProject (faults : Faults) (forward : Bool) (project : Nat)
    (table : List AdjacencyRow) : List AdjacencyRow :=
  if faults (.delete forward) then table else table.filter (·.project ≠ project)

/-- `ROLLBACK TO SAVEPOINT`, whose failure is not checked. -/
def rollback (faults : Faults) (saved current : GraphDb) : GraphDb :=
  if faults .rollback then current else saved

def buildCSR (faults : Faults) (db : GraphDb) (project : Nat) : Bool × GraphDb :=
  if faults .savepoint then (false, db)
  else
    let cleared := { db with adjacency := deleteProject faults true project db.adjacency }
    if faults (.prepareSelect true) ∨ faults (.prepareInsert true) then
      (false, rollback faults db cleared)
    else
      let forward := packGroups (fun i => faults (.insert true i)) project cleared.adjacency
        (readRows (fun i => faults (.step true i)) 0 (selectForward db project))
      let packed := { cleared with
        adjacency := forward.table
        adjacencyRev := deleteProject faults false project db.adjacencyRev }
      if faults (.prepareSelect false) ∨ faults (.prepareInsert false) then
        (false, rollback faults db packed)
      else
        let reverse := packGroups (fun i => faults (.insert false i)) project packed.adjacencyRev
          (readRows (fun i => faults (.step false i)) 0 (selectReverse db project))
        let built := { packed with adjacencyRev := reverse.table }
        if 0 < forward.failedGroups + reverse.failedGroups ∨ faults .release then
          (false, rollback faults db built)
        else (true, built)

/-! ## The readers -/

/-- `static_cast<int64_t>` of a `uint64_t`. -/
def toInt64 (n : Nat) : Int := if n < 2 ^ 63 then n else (n : Int) - 2 ^ 64

/-- `decodeAdjacencyBlob`; a NULL has no bytes. -/
def decodeAdjacencyBlob (blob : Option (List UInt8)) : List Nat :=
  PackedWords.unpack 8 (blob.getD [])

def getCalleeIds (db : GraphDb) (nodeId : Nat) : List Nat :=
  match db.adjacency.find? fun row => (row.id : Int) = toInt64 nodeId with
  | some row => decodeAdjacencyBlob row.blob
  | none => []

def getCallerIds (db : GraphDb) (nodeId : Nat) : List Nat :=
  match db.adjacencyRev.find? fun row => (row.id : Int) = toInt64 nodeId with
  | some row => decodeAdjacencyBlob row.blob
  | none =>
    -- the scan of the forward table for a database without the reverse one
    ((db.adjacency.filter fun row => db.entityProject (toInt64 nodeId) = some row.project).filter
      fun row => nodeId ∈ decodeAdjacencyBlob row.blob).map (·.id)

/-! ## What a BLOB holds -/

/-- The most ids one BLOB can hold. -/
def kMaxGroup : Nat := 125000000

theorem length_bindBlob (bytes : List UInt8) :
    ((bindBlob bytes).getD []).length ≤ kMaxLength := by
  rw [bindBlob]
  by_cases hlong : kMaxLength < boundBytes bytes
  · rw [if_pos hlong]
    exact Nat.zero_le _
  · have hcut := List.length_take_le (boundBytes bytes) bytes
    rw [if_neg hlong, Option.getD_some]
    omega

theorem toInt_of_lt {n : Nat} (h : n < 2 ^ 31) : toInt n = n := by
  have hmod : (n + 2 ^ 31) % 2 ^ 32 = n + 2 ^ 31 := Nat.mod_eq_of_lt (by omega)
  unfold toInt
  rw [hmod]
  omega

theorem bindBlob_of_le {bytes : List UInt8} (h : bytes.length ≤ kMaxLength) :
    bindBlob bytes = some bytes := by
  have hint : toInt bytes.length = bytes.length := by
    refine toInt_of_lt ?_
    unfold kMaxLength at h
    omega
  have hbound : boundBytes bytes = bytes.length := by
    have hneg : ¬ (bytes.length : Int) < 0 := by omega
    unfold boundBytes
    rw [hint, if_neg hneg, Int.toNat_natCast]
  unfold bindBlob
  rw [hbound, if_neg (Nat.not_lt.mpr h), List.take_length]

theorem decode_group_of_le {ids : List Nat} (hlen : ids.length ≤ kMaxGroup)
    (hids : ∀ n ∈ ids, n < 2 ^ 63) :
    decodeAdjacencyBlob (bindBlob (PackedWords.pack 8 ids)) = ids := by
  have hfits : (PackedWords.pack 8 ids).length ≤ kMaxLength := by
    rw [PackedWords.length_pack]
    unfold kMaxLength
    unfold kMaxGroup at hlen
    omega
  rw [bindBlob_of_le hfits]
  refine PackedWords.unpack_pack (by decide) ?_
  intro n hn
  have hlt := hids n hn
  omega

theorem length_decode_group (ids : List Nat) :
    (decodeAdjacencyBlob (bindBlob (PackedWords.pack 8 ids))).length ≤ kMaxGroup := by
  have hlen := length_bindBlob (PackedWords.pack 8 ids)
  unfold decodeAdjacencyBlob
  rw [PackedWords.length_unpack]
  unfold kMaxLength at hlen
  unfold kMaxGroup
  omega

/-! ## The loop packs the runs -/

/-- The row an INSERT of a group writes. -/
def groupRow (project : Nat) (group : Nat × List Nat) : AdjacencyRow :=
  ⟨group.1, project, bindBlob (PackedWords.pack 8 group.2)⟩

theorem groupRow_blob (project id : Nat) (ids : List Nat) :
    (groupRow project (id, ids)).blob = bindBlob (PackedWords.pack 8 ids) := by
  simp only [groupRow]

/-- What the loop has read and not flushed. -/
def pending (s : GroupLoop) : List (Nat × Nat) := s.buf.map (s.current.toNat, ·)

/-- A group is open from the first row on. -/
def GroupLoop.Open (s : GroupLoop) : Prop := (0 ≤ s.current ∧ s.buf ≠ []) ∨ (s.current < 0 ∧ s.buf = [])

theorem flush_out (fails : Nat → Bool) (project : Nat) {s : GroupLoop} (h : s.Open) :
    (flush fails project s).out =
      (Runs.runs (pending s)).foldl (insertGroup fails project) s.out := by
  unfold flush pending
  rcases h with hopen | ⟨hneg, hempty⟩
  · have hruns := Runs.runs_append_of_ne (k := s.current.toNat) (l := []) hopen.2 (by simp)
    rw [List.append_nil] at hruns
    rw [if_pos hopen, hruns]
    rfl
  · rw [hempty]
    simp [Runs.runs]

theorem groupStep_open {project : Nat} {s : GroupLoop} {row : Nat × Nat} (h : s.Open) :
    (groupStep fails project s row).Open := by
  unfold groupStep
  split_ifs with hself
  · exact h
  · exact Or.inl ⟨Int.natCast_nonneg row.1, by simp⟩
  · rename_i hsame
    rw [Decidable.not_not] at hsame
    refine Or.inl ⟨?_, by simp⟩
    exact hsame ▸ Int.natCast_nonneg row.1

/-- One row leaves the flushed groups and the open one in line with the runs of what was read. -/
theorem groupStep_runs {project : Nat} {s : GroupLoop} {row : Nat × Nat} (h : s.Open)
    (hrow : row.1 ≠ row.2) (later : List (Nat × Nat)) :
    (Runs.runs (pending (groupStep fails project s row) ++ later)).foldl
        (insertGroup fails project) (groupStep fails project s row).out =
      (Runs.runs (pending s ++ row :: later)).foldl (insertGroup fails project) s.out := by
  unfold groupStep
  rw [if_neg hrow]
  dsimp only
  by_cases hnew : (row.1 : Int) ≠ s.current
  · rw [if_pos hnew]
    have hflush := flush_out fails project h
    have hpending : pending { flush fails project s with current := row.1, buf := [] ++ [row.2] } =
        [row] := by simp [pending]
    have hsplit : Runs.runs (pending s ++ row :: later) =
        Runs.runs (pending s) ++ Runs.runs (row :: later) := by
      rcases h with ⟨hpos, hbuf⟩ | ⟨-, hempty⟩
      · have hhead : ∀ e ∈ (row :: later).head?, e.1 ≠ s.current.toNat := by
          intro e he
          have heq : e = row := by simpa using he.symm
          rw [heq]
          omega
        have hself := Runs.runs_append_of_ne (k := s.current.toNat) (l := []) hbuf (by simp)
        rw [List.append_nil] at hself
        unfold pending
        rw [Runs.runs_append_of_ne hbuf hhead, hself]
        rfl
      · unfold pending
        rw [hempty]
        rfl
    rw [hsplit, List.foldl_append, ← hflush]
    exact congrArg (fun p => (Runs.runs (p ++ later)).foldl _ _) hpending
  · rw [if_neg hnew]
    have hkey : s.current.toNat = row.1 := by omega
    have hpending : pending { s with buf := s.buf ++ [row.2] } = pending s ++ [row] := by
      unfold pending
      rw [List.map_append, hkey]
      rfl
    rw [hpending, List.append_assoc]
    rfl

/-- **One pass over the rows inserts the runs of those that are no self-loops.** -/
theorem packGroups_eq (fails : Nat → Bool) (project : Nat) (table : List AdjacencyRow)
    (rows : List (Nat × Nat)) :
    packGroups fails project table rows =
      (Runs.runs (rows.filter fun e => e.1 ≠ e.2)).foldl (insertGroup fails project)
        ⟨table, 0, 0⟩ := by
  have hgeneral : ∀ (rows : List (Nat × Nat)) (s : GroupLoop), s.Open →
      (flush fails project (rows.foldl (groupStep fails project) s)).out =
        (Runs.runs (pending s ++ rows.filter fun e => e.1 ≠ e.2)).foldl
          (insertGroup fails project) s.out := by
    intro rows
    induction rows with
    | nil =>
        intro s hopen
        rw [List.foldl_nil, flush_out fails project hopen, List.filter_nil, List.append_nil]
    | cons row rest ih =>
        intro s hopen
        rw [List.foldl_cons, ih _ (groupStep_open hopen)]
        by_cases hself : row.1 = row.2
        · have hskip : groupStep fails project s row = s := by
            unfold groupStep
            rw [if_pos hself]
          rw [hskip]
          simp [hself]
        · have hkeep : (row :: rest).filter (fun e => e.1 ≠ e.2) =
              row :: rest.filter fun e => e.1 ≠ e.2 := by simp [hself]
          rw [hkeep]
          exact groupStep_runs hopen hself _
  exact hgeneral rows ⟨-1, [], ⟨table, 0, 0⟩⟩ (Or.inr ⟨Int.negSucc_lt_zero 0, rfl⟩)

end CodeScope.Store
