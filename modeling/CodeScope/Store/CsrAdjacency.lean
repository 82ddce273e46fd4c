import CodeScope.Store.BuildCsr

/-! # The packed adjacency is the relation table

Abstractly the adjacency is a multiset of published calls: a successful build of a project replaces
that project's calls by its CALLS relations, and nothing else changes them. Each table holds one row
per node, with the group of the node's calls (`Holds`), over every run of builds and changes of the
relation table. A reader returns the group whole exactly when it fits into one BLOB. -/

namespace CodeScope.Store

/-! ## Inserting groups -/

theorem insertGroups_failed (fails : Nat → Bool) (project : Nat) (groups : List (Nat × List Nat))
    (out : Inserts) :
    out.failedGroups ≤ (groups.foldl (insertGroup fails project) out).failedGroups := by
  induction groups generalizing out with
  | nil => exact Nat.le_refl _
  | cons group rest ih =>
      refine Nat.le_trans ?_ (ih _)
      unfold insertGroup
      dsimp only
      split_ifs
      · exact Nat.le_succ _
      · exact Nat.le_refl _

/-- One INSERT goes through when it meets no fault and its key is new. -/
theorem insertGroup_cases (fails : Nat → Bool) (project : Nat) (out : Inserts)
    (group : Nat × List Nat) :
    (fails out.executed = false ∧ (∀ r ∈ out.table, r.id ≠ group.1) ∧
        insertGroup fails project out group =
          { out with table := out.table ++ [groupRow project group]
                     executed := out.executed + 1 }) ∨
      ((fails out.executed = true ∨ ∃ r ∈ out.table, r.id = group.1) ∧
        insertGroup fails project out group =
          { out with executed := out.executed + 1, failedGroups := out.failedGroups + 1 }) := by
  unfold insertGroup
  dsimp only
  split_ifs with hfail
  · exact Or.inr ⟨hfail, rfl⟩
  · rw [not_or] at hfail
    refine Or.inl ⟨by simpa using hfail.1, ?_, rfl⟩
    intro r hr hid
    exact hfail.2 ⟨r, hr, hid⟩

variable {project : Nat}

/-- Without a failure every group has its row, and no primary key repeats. -/
theorem insertGroups_ok {fails : Nat → Bool} {groups : List (Nat × List Nat)} {out : Inserts}
    (hok : (groups.foldl (insertGroup fails project) out).failedGroups = out.failedGroups) :
    (groups.foldl (insertGroup fails project) out).table =
        out.table ++ groups.map (groupRow project) ∧
      ((out.table.map (·.id)).Nodup →
        ((groups.foldl (insertGroup fails project) out).table.map (·.id)).Nodup) := by
  induction groups generalizing out with
  | nil => exact ⟨by simp, fun hnodup => hnodup⟩
  | cons group rest ih =>
      rw [List.foldl_cons] at hok ⊢
      have hmono := insertGroups_failed fails project rest (insertGroup fails project out group)
      rw [hok] at hmono
      rcases insertGroup_cases fails project out group with ⟨_, hfresh, hout⟩ | ⟨_, hout⟩
      · rw [hout] at hok ⊢
        obtain ⟨htable, hids⟩ := ih hok
        refine ⟨?_, fun hnodup => hids ?_⟩
        · rw [htable, List.map_cons, List.append_assoc]
          rfl
        · rw [List.map_append, List.nodup_append]
          refine ⟨hnodup, by simp, ?_⟩
          intro a ha b hb heq
          obtain ⟨r, hr, rfl⟩ := List.mem_map.mp ha
          have hb' : b = group.1 := by simpa [groupRow] using hb
          exact hfresh r hr (heq.trans hb')
      · rw [hout] at hmono
        exact absurd hmono (Nat.not_succ_le_self _)

/-- Groups of distinct keys are all inserted exactly when no INSERT meets a fault and no key is
    taken. -/
theorem insertGroups_passes_iff (fails : Nat → Bool) (project : Nat) (out : Inserts)
    {groups : List (Nat × List Nat)} (hkeys : (groups.map (·.1)).Nodup) :
    (groups.foldl (insertGroup fails project) out).failedGroups = out.failedGroups ↔
      (∀ i < groups.length, fails (out.executed + i) = false) ∧
        ∀ group ∈ groups, ∀ r ∈ out.table, r.id ≠ group.1 := by
  induction groups generalizing out with
  | nil => simp
  | cons group rest ih =>
      have hmono := insertGroups_failed fails project rest (insertGroup fails project out group)
      have hrest : (rest.map (·.1)).Nodup := (List.nodup_cons.mp hkeys).2
      rw [List.foldl_cons]
      rcases insertGroup_cases fails project out group with ⟨hfault, hfresh, hout⟩ | ⟨hfail, hout⟩
      · rw [hout, ih _ hrest]
        constructor
        · rintro ⟨hfaults, hfree⟩
          refine ⟨?_, ?_⟩
          · intro i hi
            cases i with
            | zero => exact hfault
            | succ i =>
                have hlater := hfaults i (Nat.lt_of_succ_lt_succ hi)
                rwa [Nat.add_assoc, Nat.add_comm 1 i] at hlater
          · intro g hg r hr
            rcases List.mem_cons.mp hg with rfl | hlater
            · exact hfresh r hr
            · exact hfree g hlater r (List.mem_append_left _ hr)
        · rintro ⟨hfaults, hfree⟩
          refine ⟨?_, ?_⟩
          · intro i hi
            have hlater := hfaults (i + 1) (Nat.succ_lt_succ hi)
            rwa [Nat.add_comm i 1, ← Nat.add_assoc] at hlater
          · intro g hg r hr
            rcases List.mem_append.mp hr with hold | hnew
            · exact hfree g (List.mem_cons_of_mem _ hg) r hold
            · rw [List.mem_singleton.mp hnew]
              intro hid
              have hmem : group.1 ∈ rest.map (·.1) := List.mem_map.mpr ⟨g, hg, hid.symm⟩
              exact (List.nodup_cons.mp hkeys).1 hmem
      · rw [hout] at hmono ⊢
        constructor
        · intro hok
          rw [hok] at hmono
          exact absurd hmono (Nat.not_succ_le_self _)
        · rintro ⟨hfaults, hfree⟩
          rcases hfail with hfault | ⟨r, hr, hid⟩
          · have hnone := hfaults 0 (Nat.succ_pos _)
            rw [Nat.add_zero, hfault] at hnone
            exact absurd hnone (by simp)
          · exact absurd hid (hfree group List.mem_cons_self r hr)

/-! ## A table that holds a multiset of edges -/

/-- An edge of a table: the project and the id of the row it belongs to, and the value. -/
abbrev Edge := (Nat × Nat) × Nat

/-- The values of a node, over all projects. -/
def neighbours (edges : List Edge) (n : Nat) : List Nat :=
  (edges.filter (·.1.2 = n)).map (·.2)

/-- The table has one row for each node with an edge; the row packs the node's values. -/
structure Holds (table : List AdjacencyRow) (edges : List Edge) : Prop where
  ids_nodup : (table.map (·.id)).Nodup
  row_group : ∀ row ∈ table, ∃ ids : List Nat, row = groupRow row.project (row.id, ids) ∧
    ids ≠ [] ∧ ids.Perm (Runs.valuesOf (row.project, row.id) edges)
  edge_row : ∀ e ∈ edges, ∃ row ∈ table, (row.project, row.id) = e.1
  bounds : ∀ e ∈ edges, e.1.2 < 2 ^ 63 ∧ e.2 < 2 ^ 63

/-- The edges of one project's rows. -/
def projectEdges (project : Nat) (rows : List (Nat × Nat)) : List Edge :=
  (rows.filter fun e => e.1 ≠ e.2).map fun e => ((project, e.1), e.2)

theorem valuesOf_projectEdges (project id : Nat) (rows : List (Nat × Nat)) :
    Runs.valuesOf (project, id) (projectEdges project rows) =
      Runs.valuesOf id (rows.filter fun e => e.1 ≠ e.2) := by
  unfold Runs.valuesOf projectEdges
  rw [List.filter_map, List.map_map]
  congr 1
  refine List.filter_congr ?_
  intro e _
  simp

theorem valuesOf_projectEdges_of_ne {project' : Nat} (h : project' ≠ project) (id : Nat)
    (rows : List (Nat × Nat)) : Runs.valuesOf (project', id) (projectEdges project rows) = [] := by
  refine Runs.valuesOf_of_not_mem ?_
  intro hmem
  obtain ⟨e, he, hkey⟩ := List.mem_map.mp hmem
  obtain ⟨r, -, rfl⟩ := List.mem_map.mp he
  exact h (congrArg Prod.fst hkey).symm

theorem valuesOf_otherProjects {project' : Nat} (h : project' ≠ project) (id : Nat)
    (edges : List Edge) :
    Runs.valuesOf (project', id) (edges.filter (·.1.1 ≠ project)) =
      Runs.valuesOf (project', id) edges := by
  unfold Runs.valuesOf
  rw [List.filter_filter]
  congr 1
  refine List.filter_congr ?_
  intro e _
  by_cases hkey : e.1 = (project', id)
  · simp [hkey, h]
  · simp [hkey]

theorem valuesOf_sameProject (project id : Nat) (edges : List Edge) :
    Runs.valuesOf (project, id) (edges.filter (·.1.1 ≠ project)) = [] := by
  refine Runs.valuesOf_of_not_mem ?_
  intro hmem
  obtain ⟨e, he, hkey⟩ := List.mem_map.mp hmem
  have hne : e.1.1 ≠ project := by simpa using (List.mem_filter.mp he).2
  exact hne (congrArg Prod.fst hkey)

/-- **Packing a project's rows into a table that was cleared of the project.** -/
theorem Holds.pack {table : List AdjacencyRow} {edges : List Edge} (h : Holds table edges)
    {fails : Nat → Bool} {rows : List (Nat × Nat)} (hsorted : rows.Pairwise (fun a b => a.1 ≤ b.1))
    (hbounds : ∀ e ∈ rows, e.1 < 2 ^ 63 ∧ e.2 < 2 ^ 63)
    (hok : (packGroups fails project (table.filter (·.project ≠ project)) rows).failedGroups = 0) :
    Holds (packGroups fails project (table.filter (·.project ≠ project)) rows).table
      (edges.filter (·.1.1 ≠ project) ++ projectEdges project rows) := by
  have hproper : (rows.filter fun e => e.1 ≠ e.2).Pairwise (fun a b => a.1 ≤ b.1) :=
    hsorted.filter _
  have hcleared : ((table.filter (·.project ≠ project)).map (·.id)).Nodup :=
    h.ids_nodup.sublist (List.Sublist.map _ List.filter_sublist)
  rw [packGroups_eq] at hok ⊢
  obtain ⟨htable, hids⟩ := insertGroups_ok (by exact hok)
  refine ⟨hids hcleared, ?_, ?_, ?_⟩
  · intro row hrow
    rw [htable] at hrow
    rcases List.mem_append.mp hrow with hold | hnew
    · obtain ⟨hmem, hother⟩ := List.mem_filter.mp hold
      have hne : row.project ≠ project := by simpa using hother
      obtain ⟨ids, hshape, hnonempty, hperm⟩ := h.row_group row hmem
      refine ⟨ids, hshape, hnonempty, ?_⟩
      rw [Runs.valuesOf_append, valuesOf_otherProjects hne, valuesOf_projectEdges_of_ne hne,
        List.append_nil]
      exact hperm
    · obtain ⟨group, hgroup, rfl⟩ := List.mem_map.mp hnew
      refine ⟨group.2, rfl, Runs.runs_ne_nil hgroup, ?_⟩
      have hvalues := Runs.runs_values hproper hgroup
      have hkey : ((groupRow project group).project, (groupRow project group).id) =
          (project, group.1) := rfl
      rw [hkey, Runs.valuesOf_append, valuesOf_sameProject, valuesOf_projectEdges,
        List.nil_append, ← hvalues]
  · intro e he
    rw [htable]
    rcases List.mem_append.mp he with hold | hnew
    · obtain ⟨hmem, hother⟩ := List.mem_filter.mp hold
      obtain ⟨row, hrow, hkey⟩ := h.edge_row e hmem
      have hne : row.project ≠ project := by
        rw [show row.project = e.1.1 from congrArg Prod.fst hkey]
        simpa using hother
      exact ⟨row, List.mem_append_left _ (List.mem_filter.mpr ⟨hrow, by simpa using hne⟩), hkey⟩
    · obtain ⟨r, hr, rfl⟩ := List.mem_map.mp hnew
      have hkeys : r.1 ∈ (Runs.runs (rows.filter fun e => e.1 ≠ e.2)).map (·.1) :=
        Runs.mem_keys_runs.mpr (List.mem_map_of_mem hr)
      obtain ⟨group, hgroup, hid⟩ := List.mem_map.mp hkeys
      refine ⟨groupRow project group, List.mem_append_right _ (List.mem_map_of_mem hgroup), ?_⟩
      exact Prod.ext rfl hid
  · intro e he
    rcases List.mem_append.mp he with hold | hnew
    · exact h.bounds e (List.mem_of_mem_filter hold)
    · obtain ⟨r, hr, rfl⟩ := List.mem_map.mp hnew
      exact hbounds r (List.mem_of_mem_filter hr)

/-! ## Reading a table -/

/-- The row of a node, read back. -/
def lookup (table : List AdjacencyRow) (n : Nat) : List Nat :=
  match table.find? fun row => (row.id : Int) = toInt64 n with
  | some row => decodeAdjacencyBlob row.blob
  | none => []

theorem toInt64_eq_iff {id n : Nat} (hid : id < 2 ^ 63) (hn : n < 2 ^ 64) :
    (id : Int) = toInt64 n ↔ id = n := by
  unfold toInt64
  split_ifs <;> omega

namespace Holds

variable {table : List AdjacencyRow} {edges : List Edge} (h : Holds table edges)
include h

theorem row_edge {row : AdjacencyRow} (hrow : row ∈ table) : ∃ e ∈ edges, e.1.2 = row.id := by
  obtain ⟨ids, -, hnonempty, hperm⟩ := h.row_group row hrow
  have hvalues : Runs.valuesOf (row.project, row.id) edges ≠ [] := by
    intro hnil
    rw [hnil] at hperm
    exact hnonempty (List.Perm.eq_nil hperm)
  unfold Runs.valuesOf at hvalues
  obtain ⟨v, hv⟩ := List.exists_mem_of_ne_nil _ hvalues
  obtain ⟨e, he, -⟩ := List.mem_map.mp hv
  obtain ⟨hmem, hkey⟩ := List.mem_filter.mp he
  have hkey' : e.1 = (row.project, row.id) := by simpa using hkey
  exact ⟨e, hmem, by rw [hkey']⟩

theorem id_lt {row : AdjacencyRow} (hrow : row ∈ table) : row.id < 2 ^ 63 := by
  obtain ⟨e, he, hid⟩ := h.row_edge hrow
  rw [← hid]
  exact (h.bounds e he).1

/-- All the edges of a node are of the project of its row. -/
theorem valuesOf_eq_neighbours {row : AdjacencyRow} (hrow : row ∈ table) :
    Runs.valuesOf (row.project, row.id) edges = neighbours edges row.id := by
  unfold Runs.valuesOf neighbours
  congr 1
  refine List.filter_congr ?_
  intro e he
  obtain ⟨row', hrow', hkey⟩ := h.edge_row e he
  by_cases hid : e.1.2 = row.id
  · have hsame : row' = row := by
      refine List.inj_on_of_nodup_map h.ids_nodup hrow' hrow ?_
      rw [← hid, ← hkey]
    rw [← hkey, hsame]
    simp
  · have hne : e.1 ≠ (row.project, row.id) := fun heq => hid (by rw [heq])
    simp [hid, hne]

/-- The group that the row of a node packs, when the node has a row. -/
theorem find_cases {n : Nat} (hn : n < 2 ^ 64) :
    (∃ row ids, (table.find? fun row => (row.id : Int) = toInt64 n) = some row ∧
      lookup table n = decodeAdjacencyBlob (bindBlob (PackedWords.pack 8 ids)) ∧
      ids.Perm (neighbours edges n)) ∨
    ((table.find? fun row => (row.id : Int) = toInt64 n) = none ∧ lookup table n = [] ∧
      neighbours edges n = []) := by
  unfold lookup
  cases hfind : table.find? fun row => (row.id : Int) = toInt64 n with
  | some row =>
      have hrow : row ∈ table := List.mem_of_find?_eq_some hfind
      have hid : row.id = n := by
        have htest : (row.id : Int) = toInt64 n := by simpa using List.find?_some hfind
        exact (toInt64_eq_iff (h.id_lt hrow) hn).mp htest
      obtain ⟨ids, hshape, -, hperm⟩ := h.row_group row hrow
      rw [h.valuesOf_eq_neighbours hrow, hid] at hperm
      have hblob : row.blob = bindBlob (PackedWords.pack 8 ids) := by
        rw [congrArg AdjacencyRow.blob hshape, groupRow_blob]
      refine Or.inl ⟨row, ids, rfl, ?_, hperm⟩
      dsimp only
      rw [hblob]
  | none =>
      refine Or.inr ⟨rfl, rfl, ?_⟩
      unfold neighbours
      rw [List.map_eq_nil_iff, List.filter_eq_nil_iff]
      intro e he hid
      obtain ⟨row, hrow, hkey⟩ := h.edge_row e he
      have hrowId : row.id = n := by
        rw [show row.id = e.1.2 from congrArg Prod.snd hkey]
        simpa using hid
      have hnone := List.find?_eq_none.mp hfind row hrow
      exact hnone (by simpa using (toInt64_eq_iff (h.id_lt hrow) hn).mpr hrowId)

theorem neighbours_lt {n v : Nat} (hv : v ∈ neighbours edges n) : v < 2 ^ 63 := by
  obtain ⟨e, he, rfl⟩ := List.mem_map.mp hv
  exact (h.bounds e (List.mem_of_mem_filter he)).2

theorem length_lookup {n : Nat} (hn : n < 2 ^ 64) : (lookup table n).length ≤ kMaxGroup := by
  rcases h.find_cases hn with ⟨row, ids, -, hlookup, -⟩ | ⟨-, hlookup, -⟩
  · rw [hlookup]
    exact length_decode_group ids
  · rw [hlookup, List.length_nil]
    exact Nat.zero_le kMaxGroup

/-- **A node's values are read back**, when they fit. -/
theorem lookup_perm {n : Nat} (hn : n < 2 ^ 64)
    (hfits : (neighbours edges n).length ≤ kMaxGroup) :
    (lookup table n).Perm (neighbours edges n) := by
  rcases h.find_cases hn with ⟨row, ids, -, hlookup, hperm⟩ | ⟨-, hlookup, hnone⟩
  · have hids : ∀ v ∈ ids, v < 2 ^ 63 := fun v hv => h.neighbours_lt (hperm.mem_iff.mp hv)
    rw [hlookup, decode_group_of_le (by rw [hperm.length_eq]; exact hfits) hids]
    exact hperm
  · rw [hlookup, hnone]

end Holds

/-! ## Published calls -/

/-- A call that the adjacency publishes. -/
structure Call where
  project : Nat
  source : Nat
  target : Nat
deriving DecidableEq

def targets (calls : List Call) (n : Nat) : List Nat :=
  (calls.filter (·.source = n)).map (·.target)

def sources (calls : List Call) (n : Nat) : List Nat :=
  (calls.filter (·.target = n)).map (·.source)

/-- The CALLS relations of a project that are no self-loops. -/
def callsOf (db : GraphDb) (project : Nat) : List Call :=
  ((callRows db project).filter fun e => e.1 ≠ e.2).map fun e => ⟨project, e.1, e.2⟩

/-- What is published after a successful build of a project. -/
def republish (published : List Call) (db : GraphDb) (project : Nat) : List Call :=
  published.filter (·.project ≠ project) ++ callsOf db project

/-- No statement fails whose failure the build does not check. -/
structure Checked (faults : Faults) : Prop where
  delete : ∀ forward, faults (.delete forward) = false
  step : ∀ forward i, faults (.step forward i) = false
  rollback : faults .rollback = false

/-- The databases that builds lead to, from empty adjacency tables, with the calls published: the
    relation and entity tables change freely between the builds. -/
inductive Publishes : GraphDb → List Call → Prop
  | empty (db : GraphDb) (hforward : db.adjacency = []) (hreverse : db.adjacencyRev = []) :
      Publishes db []
  | change {db : GraphDb} {published : List Call} (h : Publishes db published)
      (relations : List RelationRow) (entityProject : Int → Option Nat) :
      Publishes { db with relations := relations, entityProject := entityProject } published
  | build {db db' : GraphDb} {published : List Call} {faults : Faults} {project : Nat}
      (h : Publishes db published) (hchecked : Checked faults)
      (hbuild : buildCSR faults db project = (true, db')) :
      Publishes db' (republish published db project)
  | failed {db db' : GraphDb} {published : List Call} {faults : Faults} {project : Nat}
      (h : Publishes db published) (hchecked : Checked faults)
      (hbuild : buildCSR faults db project = (false, db')) : Publishes db' published

def forwardEdges (calls : List Call) : List Edge := calls.map fun c => ((c.project, c.source), c.target)

def reverseEdges (calls : List Call) : List Edge := calls.map fun c => ((c.project, c.target), c.source)

theorem neighbours_forward (calls : List Call) (n : Nat) :
    neighbours (forwardEdges calls) n = targets calls n := by
  unfold neighbours forwardEdges targets
  rw [List.filter_map, List.map_map]
  rfl

theorem neighbours_reverse (calls : List Call) (n : Nat) :
    neighbours (reverseEdges calls) n = sources calls n := by
  unfold neighbours reverseEdges sources
  rw [List.filter_map, List.map_map]
  rfl

/-- Both tables hold the published calls. -/
def Represents (db : GraphDb) (calls : List Call) : Prop :=
  Holds db.adjacency (forwardEdges calls) ∧ Holds db.adjacencyRev (reverseEdges calls)

/-! ## One build -/

/-- What a build can do when no unchecked statement fails: nothing, or pack both tables. -/
theorem buildCSR_cases {faults : Faults} (hchecked : Checked faults) (db : GraphDb)
    (project : Nat) :
    buildCSR faults db project = (false, db) ∨
    ∃ forward reverse,
      forward = packGroups (fun i => faults (.insert true i)) project
        (db.adjacency.filter (·.project ≠ project)) (selectForward db project) ∧
      reverse = packGroups (fun i => faults (.insert false i)) project
        (db.adjacencyRev.filter (·.project ≠ project)) (selectReverse db project) ∧
      forward.failedGroups = 0 ∧ reverse.failedGroups = 0 ∧
      buildCSR faults db project =
        (true, { db with adjacency := forward.table, adjacencyRev := reverse.table }) := by
  unfold buildCSR deleteProject rollback
  simp only [hchecked.delete, hchecked.rollback, readRows_all (hchecked.step _), Bool.false_eq_true,
    if_false]
  by_cases hsavepoint : faults .savepoint = true
  · exact Or.inl (by rw [if_pos hsavepoint])
  · rw [if_neg hsavepoint]
    by_cases hforward : faults (.prepareSelect true) = true ∨ faults (.prepareInsert true) = true
    · exact Or.inl (by rw [if_pos hforward])
    · rw [if_neg hforward]
      by_cases hreverse : faults (.prepareSelect false) = true ∨
          faults (.prepareInsert false) = true
      · exact Or.inl (by rw [if_pos hreverse])
      · rw [if_neg hreverse]
        split_ifs with hfailed
        · exact Or.inl rfl
        · rw [not_or, Nat.not_lt, Nat.le_zero, Nat.add_eq_zero_iff] at hfailed
          exact Or.inr ⟨_, _, rfl, rfl, hfailed.1.1, hfailed.1.2, rfl⟩

theorem callRows_bounds {db : GraphDb} {e : Nat × Nat} (h : e ∈ callRows db project) :
    e.1 < 2 ^ 63 ∧ e.2 < 2 ^ 63 := by
  obtain ⟨r, -, rfl⟩ := List.mem_map.mp h
  exact ⟨r.source_lt, r.target_lt⟩

theorem sorted_byKey (rows : List (Nat × Nat)) :
    (rows.mergeSort fun a b => a.1 ≤ b.1).Pairwise (fun a b => a.1 ≤ b.1) := by
  have htrans : ∀ a b c : Nat × Nat, decide (a.1 ≤ b.1) = true → decide (b.1 ≤ c.1) = true →
      decide (a.1 ≤ c.1) = true := by
    intro a b c hab hbc
    rw [decide_eq_true_eq] at hab hbc ⊢
    exact Nat.le_trans hab hbc
  have htotal : ∀ a b : Nat × Nat, (decide (a.1 ≤ b.1) || decide (b.1 ≤ a.1)) = true := by
    intro a b
    simpa using Nat.le_total a.1 b.1
  exact (List.pairwise_mergeSort htrans htotal rows).imp of_decide_eq_true

theorem forwardEdges_republish (published : List Call) (db : GraphDb) (project : Nat) :
    ((forwardEdges published).filter (·.1.1 ≠ project) ++
      projectEdges project (selectForward db project)).Perm
      (forwardEdges (republish published db project)) := by
  unfold forwardEdges republish callsOf projectEdges
  rw [List.map_append, List.filter_map, List.map_map]
  refine List.Perm.append_left _ ?_
  exact ((List.mergeSort_perm _ _).filter _).map _

theorem reverseEdges_republish (published : List Call) (db : GraphDb) (project : Nat) :
    ((reverseEdges published).filter (·.1.1 ≠ project) ++
      projectEdges project (selectReverse db project)).Perm
      (reverseEdges (republish published db project)) := by
  unfold reverseEdges republish callsOf projectEdges
  rw [List.map_append, List.filter_map, List.map_map]
  refine List.Perm.append_left _ ?_
  have hsorted : ((selectReverse db project).filter fun e => e.1 ≠ e.2).Perm
      (((callRows db project).map Prod.swap).filter fun e => e.1 ≠ e.2) :=
    (List.mergeSort_perm _ _).filter _
  refine (hsorted.map _).trans ?_
  rw [List.filter_map, List.map_map]
  have hswap : (callRows db project).filter ((fun e => decide (e.1 ≠ e.2)) ∘ Prod.swap) =
      (callRows db project).filter fun e => e.1 ≠ e.2 := by
    refine List.filter_congr ?_
    intro e _
    simp [eq_comm]
  rw [hswap]
  exact List.Perm.refl _

theorem Holds.perm {table : List AdjacencyRow} {edges edges' : List Edge} (h : Holds table edges)
    (hperm : edges.Perm edges') : Holds table edges' := by
  refine ⟨h.ids_nodup, ?_, ?_, ?_⟩
  · intro row hrow
    obtain ⟨ids, hshape, hnonempty, hids⟩ := h.row_group row hrow
    exact ⟨ids, hshape, hnonempty, hids.trans ((hperm.filter _).map _)⟩
  · intro e he
    exact h.edge_row e (hperm.mem_iff.mpr he)
  · intro e he
    exact h.bounds e (hperm.mem_iff.mpr he)

/-- **A successful build publishes the project's calls.** -/
theorem Represents.build {db db' : GraphDb} {published : List Call} {faults : Faults}
    (h : Represents db published) (hchecked : Checked faults)
    (hbuild : buildCSR faults db project = (true, db')) :
    Represents db' (republish published db project) := by
  rcases buildCSR_cases hchecked db project with hfalse | ⟨forward, reverse, hfwd, hrev, hokf, hokr,
    htrue⟩
  · rw [hfalse] at hbuild
    exact absurd (congrArg Prod.fst hbuild) (by simp)
  · rw [htrue] at hbuild
    obtain ⟨-, rfl⟩ := Prod.mk.inj hbuild
    subst hfwd hrev
    have hboundsForward : ∀ e ∈ selectForward db project, e.1 < 2 ^ 63 ∧ e.2 < 2 ^ 63 := by
      intro e he
      exact callRows_bounds ((List.mergeSort_perm _ _).mem_iff.mp he)
    have hboundsReverse : ∀ e ∈ selectReverse db project, e.1 < 2 ^ 63 ∧ e.2 < 2 ^ 63 := by
      intro e he
      obtain ⟨r, hr, rfl⟩ := List.mem_map.mp ((List.mergeSort_perm _ _).mem_iff.mp he)
      exact (callRows_bounds hr).symm
    exact ⟨(h.1.pack (sorted_byKey _) hboundsForward hokf).perm (forwardEdges_republish _ _ _),
      (h.2.pack (sorted_byKey _) hboundsReverse hokr).perm (reverseEdges_republish _ _ _)⟩

/-- **The tables represent what is published**, over every run. -/
theorem Publishes.represents {db : GraphDb} {published : List Call}
    (h : Publishes db published) : Represents db published := by
  induction h with
  | empty db hforward hreverse =>
      unfold Represents
      rw [hforward, hreverse]
      exact ⟨⟨by simp, by simp, by simp [forwardEdges], by simp [forwardEdges]⟩,
        ⟨by simp, by simp, by simp [reverseEdges], by simp [reverseEdges]⟩⟩
  | change h relations entityProject ih => exact ih
  | build h hchecked hbuild ih => exact ih.build hchecked hbuild
  | failed h hchecked hbuild ih =>
      rename_i db db' published faults project
      rcases buildCSR_cases hchecked db project with hfalse | ⟨_, _, _, _, _, _, htrue⟩
      · rw [hfalse] at hbuild
        obtain ⟨-, rfl⟩ := Prod.mk.inj hbuild
        exact ih
      · rw [htrue] at hbuild
        exact absurd (congrArg Prod.fst hbuild) (by simp)

/-! ## The readers -/

/-- No node has more published callees, or callers, than one BLOB can hold. -/
def Fits (calls : List Call) : Prop :=
  ∀ n, (targets calls n).length ≤ kMaxGroup ∧ (sources calls n).length ≤ kMaxGroup

/-- The readers answer with the published calls: the callees of a node are its targets, with
    multiplicity, and the callers are the transpose. -/
def ReadsBack (db : GraphDb) (calls : List Call) : Prop :=
  (∀ n < 2 ^ 64, (getCalleeIds db n).Perm (targets calls n)) ∧
  (∀ n < 2 ^ 64, ∀ m < 2 ^ 64, (getCallerIds db n).count m = (getCalleeIds db m).count n)

theorem count_sources (calls : List Call) (n m : Nat) :
    (sources calls n).count m = (targets calls m).count n := by
  unfold sources targets
  induction calls with
  | nil => rfl
  | cons c rest ih =>
      by_cases hsource : c.source = m <;> by_cases htarget : c.target = n <;>
        simp [hsource, htarget, ih]

section Readers

variable {db : GraphDb} {calls : List Call} (h : Represents db calls)
include h

theorem length_getCalleeIds {n : Nat} (hn : n < 2 ^ 64) :
    (getCalleeIds db n).length ≤ kMaxGroup := h.1.length_lookup hn

theorem getCalleeIds_perm (hfits : Fits calls) {n : Nat} (hn : n < 2 ^ 64) :
    (getCalleeIds db n).Perm (targets calls n) := by
  have hlookup := h.1.lookup_perm hn (by rw [neighbours_forward]; exact (hfits n).1)
  rw [neighbours_forward] at hlookup
  exact hlookup

/-- The callers come from the row of the reverse table; without one there is no caller to find by
    the scan either. -/
theorem getCallerIds_cases (n : Nat) (hn : n < 2 ^ 64) :
    (getCallerIds db n).length ≤ kMaxGroup ∨ sources calls n = [] := by
  rcases h.2.find_cases hn with ⟨row, ids, hfind, hlookup, -⟩ | ⟨-, -, hnone⟩
  · have hlength := h.2.length_lookup hn
    unfold lookup at hlength
    rw [hfind] at hlength
    refine Or.inl ?_
    unfold getCallerIds
    rw [hfind]
    exact hlength
  · rw [neighbours_reverse] at hnone
    exact Or.inr hnone

theorem getCallerIds_perm (hfits : Fits calls) {n : Nat} (hn : n < 2 ^ 64) :
    (getCallerIds db n).Perm (sources calls n) := by
  have hlookup := h.2.lookup_perm hn (by rw [neighbours_reverse]; exact (hfits n).2)
  rw [neighbours_reverse] at hlookup
  rcases h.2.find_cases hn with ⟨row, ids, hfind, -, -⟩ | ⟨hfind, -, hnone⟩
  · unfold lookup at hlookup
    unfold getCallerIds
    rw [hfind] at hlookup ⊢
    exact hlookup
  · rw [neighbours_reverse] at hnone
    unfold getCallerIds
    rw [hfind, hnone]
    dsimp only
    -- a forward row that mentions `n` would publish a call into `n`
    have hscan : ∀ row ∈ db.adjacency, n ∉ decodeAdjacencyBlob row.blob := by
      intro row hrow hmem
      have hid : row.id < 2 ^ 64 := Nat.lt_trans (h.1.id_lt hrow) (by decide)
      have hcallees := getCalleeIds_perm h hfits hid
      have hread : getCalleeIds db row.id = decodeAdjacencyBlob row.blob := by
        unfold getCalleeIds
        cases hfound : db.adjacency.find? fun row' => (row'.id : Int) = toInt64 row.id with
        | none =>
            have hself := List.find?_eq_none.mp hfound row hrow
            exact absurd (by simpa using (toInt64_eq_iff (h.1.id_lt hrow) hid).mpr rfl) hself
        | some row' =>
            have hrow' := List.mem_of_find?_eq_some hfound
            have htest : (row'.id : Int) = toInt64 row.id := by
              simpa using List.find?_some hfound
            have hsame := (toInt64_eq_iff (h.1.id_lt hrow') hid).mp htest
            rw [List.inj_on_of_nodup_map h.1.ids_nodup hrow' hrow hsame]
      rw [← hread] at hmem
      obtain ⟨c, hc, htarget⟩ := List.mem_map.mp (hcallees.mem_iff.mp hmem)
      have hsource : c.source ∈ sources calls n := by
        refine List.mem_map.mpr ⟨c, List.mem_filter.mpr ⟨List.mem_of_mem_filter hc, ?_⟩, rfl⟩
        simpa using htarget
      rw [hnone] at hsource
      exact absurd hsource List.not_mem_nil
    have hempty : ((db.adjacency.filter fun row =>
        db.entityProject (toInt64 n) = some row.project).filter
        fun row => n ∈ decodeAdjacencyBlob row.blob) = [] := by
      rw [List.filter_eq_nil_iff]
      intro row hrow hmem
      exact hscan row (List.mem_of_mem_filter hrow) (by simpa using hmem)
    rw [hempty]
    exact List.Perm.refl _

theorem readsBack_of_fits (hfits : Fits calls) : ReadsBack db calls := by
  refine ⟨fun n hn => getCalleeIds_perm h hfits hn, ?_⟩
  intro n hn m hm
  rw [(getCallerIds_perm h hfits hn).count_eq, (getCalleeIds_perm h hfits hm).count_eq]
  exact count_sources calls n m

theorem fits_of_readsBack (hreads : ReadsBack db calls) : Fits calls := by
  obtain ⟨hcallees, htranspose⟩ := hreads
  intro n
  by_cases hn : n < 2 ^ 64
  · refine ⟨?_, ?_⟩
    · rw [← (hcallees n hn).length_eq]
      exact length_getCalleeIds h hn
    · rcases getCallerIds_cases h n hn with hlength | hnone
      · refine Nat.le_trans (List.Subperm.length_le ?_) hlength
        rw [List.subperm_ext_iff]
        intro m hmem
        have hm : m < 2 ^ 64 := by
          rw [← neighbours_reverse] at hmem
          exact Nat.lt_trans (h.2.neighbours_lt hmem) (by decide)
        rw [htranspose n hn m hm, (hcallees m hm).count_eq, count_sources]
      · rw [hnone, List.length_nil]
        exact Nat.zero_le kMaxGroup
  · have hnone : ∀ (edges : List Edge), (∀ e ∈ edges, e.1.2 < 2 ^ 63 ∧ e.2 < 2 ^ 63) →
        neighbours edges n = [] := by
      intro edges hbounds
      unfold neighbours
      rw [List.map_eq_nil_iff, List.filter_eq_nil_iff]
      intro e he hid
      have hlt := (hbounds e he).1
      have heq : e.1.2 = n := by simpa using hid
      omega
    rw [← neighbours_forward, ← neighbours_reverse, hnone _ h.1.bounds, hnone _ h.2.bounds,
      List.length_nil]
    exact ⟨Nat.zero_le kMaxGroup, Nat.zero_le kMaxGroup⟩

end Readers

/-- **The packed adjacency is the relation table, exactly when every group fits**: after a
    successful build the callees of every node are the targets of its published calls, which for
    the project built are its CALLS relations without self-loops, and the callers are the
    transpose, if and only if no node has more callees or callers than one BLOB can hold. -/
theorem csr_reads_back_iff {db db' : GraphDb} {published : List Call} {faults : Faults}
    {project : Nat} (h : Publishes db published) (hchecked : Checked faults)
    (hbuild : buildCSR faults db project = (true, db')) :
    ReadsBack db' (republish published db project) ↔ Fits (republish published db project) := by
  have hrep := h.represents.build hchecked hbuild
  exact ⟨fits_of_readsBack hrep, readsBack_of_fits hrep⟩

/-! ## A build that succeeds -/

/-- No statement fails. -/
def noFaults : Faults := fun _ => false

theorem noFaults_checked : Checked noFaults := ⟨fun _ => rfl, fun _ _ => rfl, rfl⟩

/-- **The first build of a database succeeds.** -/
theorem buildCSR_succeeds (db : GraphDb) (hforward : db.adjacency = [])
    (hreverse : db.adjacencyRev = []) (project : Nat) :
    ∃ db', buildCSR noFaults db project = (true, db') := by
  have hpacked : ∀ rows : List (Nat × Nat), rows.Pairwise (fun a b => a.1 ≤ b.1) →
      (packGroups (fun _ => false) project [] rows).failedGroups = 0 := by
    intro rows hsorted
    rw [packGroups_eq]
    exact (insertGroups_passes_iff _ _ _ (Runs.nodup_keys_runs (hsorted.filter _))).mpr
      ⟨fun _ _ => rfl, by simp⟩
  have hf := hpacked _ (sorted_byKey (callRows db project))
  have hr := hpacked _ (sorted_byKey ((callRows db project).map Prod.swap))
  unfold buildCSR deleteProject noFaults
  simp only [hforward, hreverse, List.filter_nil, readRows_all (fun _ => rfl), Bool.false_eq_true,
    if_false, or_self, or_false]
  unfold selectForward selectReverse
  rw [hf, hr]
  exact ⟨_, rfl⟩

/-- One caller with more callees than a BLOB can hold, all of them distinct. -/
def wideDb : GraphDb where
  relations := List.ofFn fun i : Fin (kMaxGroup + 1) => {
    project := 1
    source := 1
    target := i + 2
    type := kCallType
    source_lt := by decide
    target_lt := by
      have hi := i.isLt
      unfold kMaxGroup at hi
      omega }
  entityProject := fun _ => some 1
  adjacency := []
  adjacencyRev := []

theorem wideDb_targets : (targets (republish [] wideDb 1) 1).length = kMaxGroup + 1 := by
  have hrows : callRows wideDb 1 = List.ofFn fun i : Fin (kMaxGroup + 1) => (1, i.val + 2) := by
    unfold callRows wideDb
    rw [List.filter_eq_self.mpr]
    · rw [List.map_ofFn]
      refine congrArg List.ofFn ?_
      funext i
      rfl
    · intro r hr
      dsimp only at hr
      obtain ⟨i, rfl⟩ := List.mem_ofFn.mp hr
      simp
  have hcalls : ∀ e ∈ callRows wideDb 1, e.1 = 1 ∧ e.1 ≠ e.2 := by
    intro e he
    rw [hrows] at he
    obtain ⟨i, rfl⟩ := List.mem_ofFn.mp he
    refine ⟨rfl, ?_⟩
    dsimp only
    omega
  unfold targets republish callsOf
  rw [List.filter_nil, List.nil_append, List.length_map, List.filter_map, List.length_map,
    List.filter_filter, List.filter_eq_self.mpr, hrows, List.length_ofFn]
  intro e he
  obtain ⟨hsource, hne⟩ := hcalls e he
  simpa [hsource] using hne

/-- A node with 125000001 callees is not read back after a build that succeeds. -/
theorem csr_loses_wide_group : ∃ db', buildCSR noFaults wideDb 1 = (true, db') ∧
    ¬ (getCalleeIds db' 1).Perm (targets (callsOf wideDb 1) 1) := by
  obtain ⟨db', hbuild⟩ := buildCSR_succeeds wideDb rfl rfl 1
  refine ⟨db', hbuild, ?_⟩
  intro hperm
  have hrep := (Publishes.empty wideDb rfl rfl).represents.build noFaults_checked hbuild
  have hshort := length_getCalleeIds hrep (show 1 < 2 ^ 64 by decide)
  rw [hperm.length_eq] at hshort
  have hwide := wideDb_targets
  unfold republish at hwide
  rw [List.filter_nil, List.nil_append] at hwide
  omega

/-- Two callers of one function, a duplicate relation and a self-loop. -/
def smallDb : GraphDb where
  relations := [⟨1, 5, 7, 1, by decide, by decide⟩, ⟨1, 6, 7, 1, by decide, by decide⟩,
    ⟨1, 5, 7, 1, by decide, by decide⟩, ⟨1, 7, 7, 1, by decide, by decide⟩,
    ⟨1, 5, 6, 2, by decide, by decide⟩]
  entityProject := fun _ => some 1
  adjacency := []
  adjacencyRev := []

theorem csr_reads_back_iff_smallDb : ∃ db', buildCSR noFaults smallDb 1 = (true, db') ∧
    (ReadsBack db' (republish [] smallDb 1) ↔ Fits (republish [] smallDb 1)) := by
  obtain ⟨db', hbuild⟩ := buildCSR_succeeds smallDb rfl rfl 1
  exact ⟨db', hbuild,
    csr_reads_back_iff (Publishes.empty smallDb rfl rfl) noFaults_checked hbuild⟩

end CodeScope.Store
