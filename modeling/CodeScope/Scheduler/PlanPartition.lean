import CodeScope.Scheduler.ChunkPlan

/-! # A plan partitions the file list

One pass of the inner loop takes consecutive indices and adds up their sizes; the outer loop goes
through all entries of a directory; the directories go through all files. So the chunks' ranges name
every index once, and the workers' slices hold every file once. They do so in the order of the
directories' sizes, not of the indices. -/

namespace CodeScope.Scheduler

open Text (Str str)
open Slices (slice)

/-- The indices a chunk names. -/
def Chunk.indices (c : Chunk) : List ℕ := List.range' c.fileStart c.fileCount

/-- The files a chunk names. -/
def Chunk.files (c : Chunk) (files : List FileEntry) : List FileEntry :=
  slice c.fileStart c.fileCount files

/-- The exact sum of sizes. -/
def totalSize (files : List FileEntry) : ℕ := (files.map fun f => f.size.toNat).sum

/-! ## One chunk -/

section Cut

variable {idx : FileEntry → ℕ} {targetBytes maxBytes : UInt64} {entries : List FileEntry}

/-- No entry's size overflows on top of an unfinished chunk. -/
def Room (targetBytes : UInt64) (entries : List FileEntry) : Prop :=
  ∀ e ∈ entries, targetBytes.toNat + e.size.toNat ≤ 2 ^ 64

theorem toNat_add_size {bytes : UInt64} {entry : FileEntry} (hbytes : bytes < targetBytes)
    (hroom : targetBytes.toNat + entry.size.toNat ≤ 2 ^ 64) :
    (bytes + entry.size).toNat = bytes.toNat + entry.size.toNat := by
  have hlt : bytes.toNat < targetBytes.toNat := UInt64.lt_iff_toNat_lt.mp hbytes
  rw [UInt64.toNat_add, Nat.mod_eq_of_lt (by omega)]

/-- What the inner loop takes behind the index `start`: consecutive entries whose sizes it adds. -/
structure Takes (idx : FileEntry → ℕ) (start : ℕ) (bytes : UInt64) (entries : List FileEntry)
    (taken : ℕ × UInt64) : Prop where
  length : taken.1 ≤ entries.length
  indices : (entries.take taken.1).map idx = List.range' start taken.1
  total : taken.2.toNat = bytes.toNat + totalSize (entries.take taken.1)

theorem takes_none {start : ℕ} {bytes : UInt64} : Takes idx start bytes entries (0, bytes) where
  length := Nat.zero_le _
  indices := rfl
  total := rfl

theorem Takes.cons {entry : FileEntry} {bytes : UInt64} {taken : ℕ × UInt64}
    (h : Takes idx (idx entry + 1) (bytes + entry.size) entries taken)
    (hsum : (bytes + entry.size).toNat = bytes.toNat + entry.size.toNat) :
    Takes idx (idx entry) bytes (entry :: entries) (taken.1 + 1, taken.2) where
  length := Nat.succ_le_succ h.length
  indices := by rw [List.take_succ_cons, List.map_cons, h.indices, List.range'_succ]
  total := by
    rw [h.total, hsum, List.take_succ_cons, totalSize, totalSize, List.map_cons, List.sum_cons]
    omega

/-- The inner loop behind the first entry of a chunk keeps below the ceiling. -/
theorem takeChunk_some (last : ℕ) {bytes : UInt64} (hroom : Room targetBytes entries)
    (hbytes : bytes < targetBytes) (hmax : targetBytes ≤ maxBytes) :
    Takes idx (last + 1) bytes entries
        (takeChunk idx targetBytes maxBytes (some last) bytes entries) ∧
      (takeChunk idx targetBytes maxBytes (some last) bytes entries).2 ≤ maxBytes := by
  have hbelow : bytes ≤ maxBytes := UInt64.le_trans (UInt64.le_of_lt hbytes) hmax
  induction entries generalizing last bytes with
  | nil => exact ⟨takes_none, hbelow⟩
  | cons entry rest ih =>
      rw [takeChunk]
      split
      · exact ⟨takes_none, hbelow⟩
      · rename_i hgap
        split
        · exact ⟨takes_none, hbelow⟩
        · rename_i hceiling
          have hnext : idx entry = last + 1 := by simpa using hgap
          have hfits : bytes + entry.size ≤ maxBytes := by
            simpa [UInt64.not_lt] using hceiling
          have hsum := toNat_add_size hbytes (hroom entry List.mem_cons_self)
          split
          · exact ⟨hnext ▸ Takes.cons takes_none hsum, hfits⟩
          · rename_i htarget
            have hbytes' : bytes + entry.size < targetBytes := UInt64.not_le.mp htarget
            obtain ⟨htakes, hle⟩ := ih (idx entry)
              (fun e he => hroom e (List.mem_cons_of_mem entry he)) hbytes' hfits
            exact ⟨hnext ▸ htakes.cons hsum, hle⟩

/-- **A chunk takes consecutive entries, adds up their sizes, and exceeds the ceiling only with one
    file.** -/
theorem takeChunk_none (idx : FileEntry → ℕ) {entry : FileEntry} (hroom : Room targetBytes (entry :: entries))
    (hpos : 0 < targetBytes) (hmax : targetBytes ≤ maxBytes) :
    Takes idx (idx entry) 0 (entry :: entries)
        (takeChunk idx targetBytes maxBytes none 0 (entry :: entries)) ∧
      ((takeChunk idx targetBytes maxBytes none 0 (entry :: entries)).2 ≤ maxBytes ∨
        (takeChunk idx targetBytes maxBytes none 0 (entry :: entries)).1 = 1) := by
  have hsum := toNat_add_size hpos (hroom entry List.mem_cons_self)
  rw [takeChunk, if_neg (by simp), if_neg (by simp)]
  split
  · exact ⟨Takes.cons takes_none hsum, Or.inr rfl⟩
  · rename_i htarget
    obtain ⟨htakes, hle⟩ := takeChunk_some (idx entry)
      (fun e he => hroom e (List.mem_cons_of_mem entry he)) (UInt64.not_le.mp htarget) hmax
    exact ⟨htakes.cons hsum, Or.inl hle⟩

/-! ## One directory -/

/-- What a chunk of a directory names: entries of the directory, in a row. -/
structure ChunkOf (idx : FileEntry → ℕ) (maxBytes : UInt64) (dir : Str) (entries : List FileEntry)
    (c : Chunk) (taken : List FileEntry) : Prop where
  dirPrefix : c.dirPrefix = dir
  nonempty : 0 < c.fileCount
  members : ∀ e ∈ taken, e ∈ entries
  indices : taken.map idx = c.indices
  total : c.totalBytes.toNat = totalSize taken
  ceiling : c.totalBytes ≤ maxBytes ∨ c.fileCount = 1

theorem cutCluster_cons (dir : Str) (entry : FileEntry) (rest : List FileEntry) :
    cutCluster idx targetBytes maxBytes dir (entry :: rest) =
      ⟨idx entry, (takeChunk idx targetBytes maxBytes none 0 (entry :: rest)).1,
        (takeChunk idx targetBytes maxBytes none 0 (entry :: rest)).2, 0, dir⟩ ::
        cutCluster idx targetBytes maxBytes dir ((entry :: rest).drop
          (takeChunk idx targetBytes maxBytes none 0 (entry :: rest)).1) := by
  rw [cutCluster]

/-- **The outer loop goes through the indices of a directory in order**, and every chunk keeps its
    books. -/
theorem cutCluster_spec (idx : FileEntry → ℕ) (dir : Str) (hroom : Room targetBytes entries) (hpos : 0 < targetBytes)
    (hmax : targetBytes ≤ maxBytes) :
    (cutCluster idx targetBytes maxBytes dir entries).flatMap Chunk.indices = entries.map idx ∧
      ∀ c ∈ cutCluster idx targetBytes maxBytes dir entries,
        ∃ taken, ChunkOf idx maxBytes dir entries c taken := by
  fun_induction cutCluster idx targetBytes maxBytes dir entries with
  | case1 => exact ⟨rfl, fun c hc => absurd hc List.not_mem_nil⟩
  | case2 entry rest taken ih =>
      obtain ⟨htakes, hceiling⟩ := takeChunk_none idx hroom hpos hmax
      obtain ⟨hindices, hchunks⟩ := ih fun e he => hroom e (List.mem_of_mem_drop he)
      constructor
      · rw [List.flatMap_cons, hindices, Chunk.indices, ← htakes.indices, ← List.map_append,
          List.take_append_drop]
      · intro c hc
        rcases List.mem_cons.mp hc with rfl | hc
        · refine ⟨(entry :: rest).take taken.1, rfl, takeChunk_pos _ _ _ _ _,
            fun e he => List.mem_of_mem_take he, htakes.indices, ?_, hceiling⟩
          rw [htakes.total]
          exact Nat.zero_add _
        · obtain ⟨later, hlater⟩ := hchunks c hc
          exact ⟨later, { hlater with
            members := fun e he => List.mem_of_mem_drop (hlater.members e he) }⟩

end Cut

/-! ## The index of a file -/

section Plan

variable {files : List FileEntry}

/-- With distinct paths the map holds every file's position. -/
theorem pathToIdx_getElem (hnodup : (files.map (·.path)).Nodup) {i : ℕ} {f : FileEntry}
    (hf : files[i]? = some f) : pathToIdx files f.path = some i := by
  have hmem : (f, i) ∈ files.zipIdx.reverse :=
    List.mem_reverse.mpr (List.mem_zipIdx_iff_getElem?.mpr hf)
  rw [pathToIdx]
  cases hfind : files.zipIdx.reverse.find? fun g => g.1.path = f.path with
  | none => exact absurd (List.find?_eq_none.mp hfind (f, i) hmem) (by simp)
  | some found =>
      obtain ⟨g, j⟩ := found
      have hpath : g.path = f.path := by simpa using List.find?_some hfind
      have hg : files[j]? = some g :=
        List.mem_zipIdx_iff_getElem?.mp (List.mem_reverse.mp (List.mem_of_find?_eq_some hfind))
      have hpaths : (files.map (·.path))[j]? = (files.map (·.path))[i]? := by
        rw [List.getElem?_map, List.getElem?_map, hf, hg, Option.map_some, Option.map_some, hpath]
      have hlt : j < (files.map (·.path)).length := by
        rw [List.length_map]
        exact (List.getElem?_eq_some_iff.mp hg).1
      exact congrArg some ((List.getElem?_inj hlt hnodup).mp hpaths)

/-- The index the planner looks up for an entry. -/
def fileIdx (files : List FileEntry) (f : FileEntry) : ℕ :=
  (pathToIdx files f.path).getD (2 ^ 64 - 1)

theorem fileIdx_getElem (hnodup : (files.map (·.path)).Nodup) {i : ℕ} {f : FileEntry}
    (hf : files[i]? = some f) : fileIdx files f = i := by
  rw [fileIdx, pathToIdx_getElem hnodup hf]
  rfl

theorem getElem_fileIdx (hnodup : (files.map (·.path)).Nodup) {f : FileEntry} (hf : f ∈ files) :
    files[fileIdx files f]? = some f := by
  obtain ⟨i, hi⟩ := List.mem_iff_getElem?.mp hf
  rw [fileIdx_getElem hnodup hi, hi]

theorem map_fileIdx (hnodup : (files.map (·.path)).Nodup) :
    files.map (fileIdx files) = List.range files.length := by
  refine List.ext_getElem? fun i => ?_
  rw [List.getElem?_map]
  cases hf : files[i]? with
  | none =>
      have hend : (List.range files.length).length ≤ i := by
        rw [List.length_range]
        exact List.getElem?_eq_none_iff.mp hf
      rw [Option.map_none, List.getElem?_eq_none hend]
  | some f =>
      have hlt := (List.getElem?_eq_some_iff.mp hf).1
      rw [Option.map_some, fileIdx_getElem hnodup hf, List.getElem?_range hlt]

end Plan

/-! ## The plan -/

/-- The chunks name every index once; each keeps to one directory, adds up the sizes of its files and
    exceeds the ceiling only with one file; a directory's chunks follow each other. -/
structure Partitions (files : List FileEntry) (maxBytes : UInt64) (chunks : List Chunk) : Prop where
  cover : (chunks.flatMap Chunk.indices).Perm (List.range files.length)
  disjoint : chunks.Pairwise fun c d => List.Disjoint c.indices d.indices
  nonempty : ∀ c ∈ chunks, 0 < c.fileCount
  directory : ∀ c ∈ chunks, ∀ f ∈ c.files files, dirPrefix f.path clusterDepth = c.dirPrefix
  total : ∀ c ∈ chunks, c.totalBytes.toNat = totalSize (c.files files)
  ceiling : ∀ c ∈ chunks, c.totalBytes ≤ maxBytes ∨ c.fileCount = 1
  ordered : chunks.Pairwise fun c d =>
    c.dirPrefix = d.dirPrefix → c.fileStart + c.fileCount ≤ d.fileStart

section Groups

variable {hash : HashOrder} {files : List FileEntry}

theorem groupByPrefix_perm (hash : HashOrder) (files : List FileEntry) :
    (groupByPrefix hash files clusterDepth).Perm
      ((files.map fun f => dirPrefix f.path clusterDepth).dedup.map fun dir =>
        (dir, cluster files clusterDepth dir)) :=
  ((List.reverse_perm _).trans (List.perm_insertionSort _ _)).trans ((hash.perm _).map _)

theorem mem_groupByPrefix {group : Str × List FileEntry}
    (h : group ∈ groupByPrefix hash files clusterDepth) :
    group.2 = cluster files clusterDepth group.1 := by
  obtain ⟨dir, _, rfl⟩ := List.mem_map.mp ((groupByPrefix_perm hash files).mem_iff.mp h)
  rfl

theorem groupByPrefix_nodup (hash : HashOrder) (files : List FileEntry) :
    ((groupByPrefix hash files clusterDepth).map (·.1)).Nodup := by
  have hperm := (groupByPrefix_perm hash files).map (·.1)
  rw [List.map_map] at hperm
  refine hperm.nodup_iff.mpr ?_
  rw [show (Prod.fst ∘ fun dir => (dir, cluster files clusterDepth dir)) = id from rfl, List.map_id]
  exact List.nodup_dedup _

theorem flatMap_groups_perm (hash : HashOrder) (files : List FileEntry) :
    ((groupByPrefix hash files clusterDepth).flatMap (·.2)).Perm files := by
  refine ((groupByPrefix_perm hash files).flatMap_right _).trans ?_
  rw [List.flatMap_map]
  refine Slices.flatMap_group_perm (List.nodup_dedup _) fun f hf => ?_
  exact List.mem_dedup.mpr (List.mem_map.mpr ⟨f, hf, rfl⟩)

end Groups

section Plan

variable {hash : HashOrder} {files : List FileEntry} {targetBytes maxBytes : UInt64}

/-- The chunks of one directory. -/
def groupChunks (files : List FileEntry) (targetBytes maxBytes : UInt64)
    (group : Str × List FileEntry) : List Chunk :=
  cutCluster (fileIdx files) targetBytes maxBytes group.1
    (group.2.insertionSort fun a b => fileIdx files a ≤ fileIdx files b)

theorem planChunks_eq (hne : files ≠ []) (hpos : 0 < targetBytes) (hmax : targetBytes ≤ maxBytes) :
    planChunks hash files targetBytes maxBytes =
      some ((groupByPrefix hash files clusterDepth).flatMap
        (groupChunks files targetBytes maxBytes)) := by
  rw [planChunks, if_neg]
  · rfl
  · rintro (hnil | hzero | hlt)
    · exact hne hnil
    · rw [hzero] at hpos
      exact absurd hpos (UInt64.lt_irrefl 0)
    · exact absurd hmax (UInt64.not_le.mpr hlt)

theorem group_sublist {group : Str × List FileEntry}
    (hgroup : group ∈ groupByPrefix hash files clusterDepth) : group.2.Sublist files := by
  rw [mem_groupByPrefix hgroup]
  exact List.filter_sublist

theorem group_pairwise (hnodup : (files.map (·.path)).Nodup) {group : Str × List FileEntry}
    (hgroup : group ∈ groupByPrefix hash files clusterDepth) :
    (group.2.map (fileIdx files)).Pairwise (· < ·) := by
  have hsub := (group_sublist hgroup).map (fileIdx files)
  rw [map_fileIdx hnodup] at hsub
  exact List.pairwise_lt_range.sublist hsub

/-- **The chunks of one directory go through its indices in order.** -/
theorem groupChunks_spec (hnodup : (files.map (·.path)).Nodup) (hroom : Room targetBytes files)
    (hpos : 0 < targetBytes) (hmax : targetBytes ≤ maxBytes) {group : Str × List FileEntry}
    (hgroup : group ∈ groupByPrefix hash files clusterDepth) :
    (groupChunks files targetBytes maxBytes group).flatMap Chunk.indices =
        group.2.map (fileIdx files) ∧
      ∀ c ∈ groupChunks files targetBytes maxBytes group,
        ChunkOf (fileIdx files) maxBytes group.1 group.2 c (c.files files) := by
  have hsub := group_sublist hgroup
  have hsorted : (group.2.insertionSort fun a b => fileIdx files a ≤ fileIdx files b) = group.2 := by
    refine List.Pairwise.insertionSort_eq ?_
    exact (List.pairwise_map.mp (group_pairwise hnodup hgroup)).imp fun h => Nat.le_of_lt h
  obtain ⟨hindices, hchunks⟩ := cutCluster_spec (fileIdx files) group.1
    (fun e he => hroom e (hsub.subset he)) hpos hmax
  rw [groupChunks, hsorted]
  refine ⟨hindices, fun c hc => ?_⟩
  obtain ⟨taken, htaken⟩ := hchunks c hc
  have hslice : taken = c.files files :=
    Slices.eq_slice (fun f hf => getElem_fileIdx hnodup (hsub.subset (htaken.members f hf)))
      htaken.indices
  rw [← hslice]
  exact htaken

/-- Chunks that follow each other in the indices do not overlap. -/
theorem ordered_of_pairwise {chunks : List Chunk} (hpos : ∀ c ∈ chunks, 0 < c.fileCount)
    (h : (chunks.flatMap Chunk.indices).Pairwise (· < ·)) :
    chunks.Pairwise fun c d => c.fileStart + c.fileCount ≤ d.fileStart := by
  have hpairs := (List.pairwise_flatMap.mp h).2
  refine hpairs.imp_of_mem fun {c d} hc hd hlt => ?_
  have hlast : c.fileStart + (c.fileCount - 1) ∈ c.indices := by
    rw [Chunk.indices, List.mem_range'_1]
    have := hpos c hc
    omega
  have hfirst : d.fileStart ∈ d.indices := by
    rw [Chunk.indices, List.mem_range'_1]
    have := hpos d hd
    omega
  have := hlt _ hlast _ hfirst
  have := hpos c hc
  omega

/-- The plan of every nonempty list with distinct paths partitions it. -/
theorem planChunks_spec (hash : HashOrder) (hne : files ≠ [])
    (hnodup : (files.map (·.path)).Nodup) (hroom : Room targetBytes files) (hpos : 0 < targetBytes)
    (hmax : targetBytes ≤ maxBytes) :
    ∃ chunks, planChunks hash files targetBytes maxBytes = some chunks ∧
      Partitions files maxBytes chunks := by
  refine ⟨_, planChunks_eq hne hpos hmax, ?_⟩
  have hspec := fun group (h : group ∈ groupByPrefix hash files clusterDepth) =>
    groupChunks_spec hnodup hroom hpos hmax h
  have hcover : (((groupByPrefix hash files clusterDepth).flatMap
      (groupChunks files targetBytes maxBytes)).flatMap Chunk.indices).Perm
        (List.range files.length) := by
    rw [List.flatMap_assoc, ← map_fileIdx hnodup]
    refine List.Perm.trans ?_ ((flatMap_groups_perm hash files).map _)
    rw [List.map_flatMap]
    exact List.Perm.flatMap_left _ fun group hgroup => (hspec group hgroup).1 ▸ .refl _
  have hone : ∀ c ∈ (groupByPrefix hash files clusterDepth).flatMap
      (groupChunks files targetBytes maxBytes), ∃ group ∈ groupByPrefix hash files clusterDepth,
        ChunkOf (fileIdx files) maxBytes group.1 group.2 c (c.files files) := by
    intro c hc
    obtain ⟨group, hgroup, hc⟩ := List.mem_flatMap.mp hc
    exact ⟨group, hgroup, (hspec group hgroup).2 c hc⟩
  refine ⟨hcover, ?_, ?_, ?_, ?_, ?_, ?_⟩
  · exact (List.nodup_flatMap.mp (hcover.nodup_iff.mpr List.nodup_range)).2
  · intro c hc
    obtain ⟨_, _, hof⟩ := hone c hc
    exact hof.nonempty
  · intro c hc f hf
    obtain ⟨group, hgroup, hof⟩ := hone c hc
    have hin := hof.members f hf
    rw [mem_groupByPrefix hgroup] at hin
    rw [hof.dirPrefix]
    simpa using (List.mem_filter.mp hin).2
  · intro c hc
    obtain ⟨_, _, hof⟩ := hone c hc
    exact hof.total
  · intro c hc
    obtain ⟨_, _, hof⟩ := hone c hc
    exact hof.ceiling
  · refine List.pairwise_flatMap.mpr ⟨fun group hgroup => ?_, ?_⟩
    · obtain ⟨hindices, hchunks⟩ := hspec group hgroup
      have hgoesUp := group_pairwise hnodup hgroup
      rw [← hindices] at hgoesUp
      refine (ordered_of_pairwise (fun c hc => (hchunks c hc).nonempty) hgoesUp).imp ?_
      intro c d hafter _
      exact hafter
    · have hdirs := List.pairwise_map.mp (groupByPrefix_nodup hash files)
      refine hdirs.imp_of_mem fun {g g'} hg hg' hdiff c hc d hd hsame => ?_
      refine absurd ?_ hdiff
      rw [← ((hspec g hg).2 c hc).dirPrefix, hsame, ((hspec g' hg').2 d hd).dirPrefix]

end Plan

/-! ## The workers' slices -/

section Workers

variable {files : List FileEntry} {maxBytes : UInt64} {chunks : List Chunk}

theorem Partitions.bound (h : Partitions files maxBytes chunks) {c : Chunk} (hc : c ∈ chunks) :
    c.fileStart + c.fileCount ≤ files.length := by
  have hlast : c.fileStart + (c.fileCount - 1) ∈ chunks.flatMap Chunk.indices := by
    refine List.mem_flatMap.mpr ⟨c, hc, ?_⟩
    rw [Chunk.indices, List.mem_range'_1]
    have := h.nonempty c hc
    omega
  have := List.mem_range.mp (h.cover.mem_iff.mp hlast)
  omega

/-- A worker takes the files of its chunk as long as the queue's fields hold the range. -/
theorem workerFiles_eq (h : Partitions files maxBytes chunks) (hlen : files.length < 2 ^ 32)
    {c : Chunk} (hc : c ∈ chunks) :
    workerFiles (files.map (·.path)) ⟨.ofNat c.fileStart, .ofNat c.fileCount⟩ =
      slice c.fileStart c.fileCount (files.map (·.path)) := by
  have hbound := h.bound hc
  have hpos := h.nonempty c hc
  have hstart : (UInt32.ofNat c.fileStart).toNat = c.fileStart :=
    UInt32.toNat_ofNat_of_lt' (by rw [UInt32.size]; omega)
  have hcount : (UInt32.ofNat c.fileCount).toNat = c.fileCount :=
    UInt32.toNat_ofNat_of_lt' (by rw [UInt32.size]; omega)
  have hend : min (c.fileStart + c.fileCount) (files.map (·.path)).length - c.fileStart =
      c.fileCount := by
    rw [List.length_map]
    omega
  rw [workerFiles, hstart, hcount, if_neg, hend]
  rw [List.length_map]
  omega

theorem workers_perm (h : Partitions files maxBytes chunks) (hlen : files.length < 2 ^ 32)
    {ranges : List PlannedRange} (hfill : fillQueue chunks = some ranges) :
    (ranges.flatMap (workerFiles (files.map (·.path)))).Perm (files.map (·.path)) := by
  rw [fillQueue] at hfill
  split at hfill
  · exact absurd hfill (by simp)
  · rw [← Option.some.inj hfill, List.flatMap_map, List.flatMap_def,
      List.map_congr_left fun c hc => workerFiles_eq h hlen hc, ← List.flatMap_def]
    refine Slices.flatMap_slice_perm ?_
    rw [List.length_map]
    exact h.cover

end Workers

section Beyond

/-- `n` empty files at the root. -/
def emptyFiles (n : ℕ) : List FileEntry :=
  (List.range n).map fun i => ⟨List.replicate (i + 1) 'a', 0⟩

theorem replicate_lt {i j : ℕ} (h : i < j) : List.replicate i 'a' < List.replicate j 'a' := by
  induction i generalizing j with
  | zero =>
      cases j with
      | zero => exact absurd h (Nat.lt_irrefl 0)
      | succ j => exact List.Lex.nil
  | succ i ih =>
      cases j with
      | zero => exact absurd h (Nat.not_lt_zero _)
      | succ j => exact List.Lex.cons (ih (Nat.lt_of_succ_lt_succ h))

theorem emptyFiles_sorted (n : ℕ) :
    ((emptyFiles n).map (·.path)).Pairwise (· < ·) := by
  rw [emptyFiles, List.map_map, List.pairwise_map]
  exact List.pairwise_lt_range.imp fun h => replicate_lt (Nat.succ_lt_succ h)

theorem mem_emptyFiles {n : ℕ} {f : FileEntry} (h : f ∈ emptyFiles n) :
    dirPrefix f.path clusterDepth = str "/" ∧ f.size = 0 := by
  obtain ⟨i, _, rfl⟩ := List.mem_map.mp h
  refine ⟨?_, rfl⟩
  rw [dirPrefix, if_pos]
  intro hslash
  exact absurd (List.eq_of_mem_replicate hslash) (by decide)

/-- Empty files in a row never fill a chunk. -/
theorem takeChunk_empty {idx : FileEntry → ℕ} {targetBytes maxBytes : UInt64}
    (hpos : 0 < targetBytes) {last : ℕ} {entries : List FileEntry}
    (hsize : ∀ e ∈ entries, e.size = 0)
    (hrow : entries.map idx = List.range' (last + 1) entries.length) :
    takeChunk idx targetBytes maxBytes (some last) 0 entries = (entries.length, 0) := by
  induction entries generalizing last with
  | nil => rfl
  | cons entry rest ih =>
      rw [List.map_cons, List.length_cons, List.range'_succ] at hrow
      obtain ⟨hhead, htail⟩ := List.cons.inj hrow
      have hzero : (0 : UInt64) + entry.size = 0 := by
        rw [hsize entry List.mem_cons_self]
        rfl
      rw [takeChunk, hzero, if_neg (by simp [hhead]), if_neg (by simp),
        if_neg (UInt64.not_le.mpr hpos), hhead,
        ih (fun e he => hsize e (List.mem_cons_of_mem entry he)) htail]
      rfl

/-- Empty files at the root make one chunk. -/
theorem planChunks_empty {n : ℕ} (hn : 0 < n) :
    planChunks ⟨id, fun _ => .refl _⟩ (emptyFiles n) 1 1 = some [⟨0, n, 0, 0, str "/"⟩] := by
  have hlength : (emptyFiles n).length = n := by
    rw [emptyFiles, List.length_map, List.length_range]
  have hne : emptyFiles n ≠ [] := List.ne_nil_of_length_pos (by omega)
  have hnodup : ((emptyFiles n).map (·.path)).Nodup :=
    (emptyFiles_sorted n).imp fun h => ne_of_lt h
  have hdirs : (emptyFiles n).map (fun f => dirPrefix f.path clusterDepth) =
      List.replicate n (str "/") := by
    rw [List.map_congr_left fun f hf => (mem_emptyFiles hf).1, List.map_const', hlength]
  have hall : cluster (emptyFiles n) clusterDepth (str "/") = emptyFiles n := by
    rw [cluster, List.filter_eq_self]
    intro f hf
    rw [(mem_emptyFiles hf).1]
    exact decide_eq_true rfl
  have hgroups : groupByPrefix ⟨id, fun _ => .refl _⟩ (emptyFiles n) clusterDepth =
      [(str "/", emptyFiles n)] := by
    rw [groupByPrefix, hdirs, List.replicate_dedup (Nat.ne_of_gt hn)]
    exact congrArg (fun files => [(str "/", files)]) hall
  have hgroup : (str "/", emptyFiles n) ∈
      groupByPrefix ⟨id, fun _ => .refl _⟩ (emptyFiles n) clusterDepth := by
    rw [hgroups]
    exact List.mem_singleton_self _
  have hrow := map_fileIdx hnodup
  rw [hlength] at hrow
  rw [planChunks_eq hne (by decide) (by decide), hgroups, List.flatMap_singleton, groupChunks,
    List.Pairwise.insertionSort_eq]
  · cases hfiles : emptyFiles n with
    | nil => exact absurd hfiles hne
    | cons entry rest =>
        have hsize : ∀ e ∈ entry :: rest, e.size = 0 := by
          intro e he
          rw [← hfiles] at he
          exact (mem_emptyFiles he).2
        have hlen : n = rest.length + 1 := by
          rw [← hlength, hfiles, List.length_cons]
        rw [hfiles, hlen, List.map_cons, List.range_eq_range', List.range'_succ] at hrow
        obtain ⟨hhead, htail⟩ := List.cons.inj hrow
        have hzero : (0 : UInt64) + entry.size = 0 := by
          rw [hsize entry List.mem_cons_self]
          rfl
        have htake : takeChunk (fileIdx (entry :: rest)) 1 1 none 0 (entry :: rest) =
            (rest.length + 1, 0) := by
          rw [takeChunk, hzero, if_neg (by simp), if_neg (by simp), if_neg (by decide), hhead,
            takeChunk_empty (by decide) (fun e he => hsize e (List.mem_cons_of_mem entry he)) htail]
        rw [cutCluster_cons, htake, hhead, ← List.length_cons, List.drop_length, cutCluster,
          List.length_cons, ← hlen]
  · have hgoesUp := group_pairwise hnodup hgroup
    exact (List.pairwise_map.mp hgoesUp).imp fun h => Nat.le_of_lt h

end Beyond

end CodeScope.Scheduler
