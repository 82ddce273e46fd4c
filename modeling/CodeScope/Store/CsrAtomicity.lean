import CodeScope.Store.CsrAdjacency

/-! # The adjacency under failing statements

`buildCSR` is meant to be all or nothing: undone when a statement fails, built from every relation
row when it returns `true`. It looks at the results of some of its statements only: a DELETE that
fails is passed over, a SELECT that fails is taken for its end, and a BLOB that is too long is
written as NULL. -/

namespace CodeScope.Store

/-- Which statements of a build fail. The ROLLBACK that undoes a build works. -/
structure BuildFaults where
  faults : Faults
  undoes : faults .rollback = false

/-! ## What a build runs -/

section Build

variable (faults : Faults) (db : GraphDb) (project : Nat)

/-- The rows of a direction's SELECT: `adjacency` is the forward one. -/
def selected (forward : Bool) : List (Nat × Nat) :=
  if forward then selectForward db project else selectReverse db project

def tableOf (forward : Bool) : List AdjacencyRow :=
  if forward then db.adjacency else db.adjacencyRev

/-- The rows read before a step fails, all of them when none does. -/
def rowsRead (forward : Bool) : List (Nat × Nat) :=
  readRows (fun i => faults (.step forward i)) 0 (selected db project forward)

/-- The groups of some rows. -/
def groupsOf (rows : List (Nat × Nat)) : List (Nat × List Nat) :=
  Runs.runs (rows.filter fun e => e.1 ≠ e.2)

/-- The table a direction inserts into. -/
def keptTable (forward : Bool) : List AdjacencyRow :=
  deleteProject faults forward project (tableOf db forward)

/-- A direction after its INSERTs. -/
def inserted (forward : Bool) : Inserts :=
  packGroups (fun i => faults (.insert forward i)) project (keptTable faults db project forward)
    (rowsRead faults db project forward)

def Prepared (forward : Bool) : Prop :=
  faults (.prepareSelect forward) = false ∧ faults (.prepareInsert forward) = false

/-- The loop of a direction is reached. -/
def Reached (forward : Bool) : Prop :=
  faults .savepoint = false ∧ Prepared faults true ∧ (forward = false → Prepared faults false)

/-- Every statement goes through whose result the build looks at. -/
structure CheckedPass : Prop where
  savepoint : faults .savepoint = false
  prepared : ∀ forward, Prepared faults forward
  inserts : ∀ forward, ∀ i < (groupsOf (rowsRead faults db project forward)).length,
    faults (.insert forward i) = false
  /-- no kept row has the key of a group -/
  fresh : ∀ forward, ∀ group ∈ groupsOf (rowsRead faults db project forward),
    ∀ r ∈ keptTable faults db project forward, r.id ≠ group.1
  release : faults .release = false

/-- The statement is executed. -/
def Executes : Statement → Prop
  | .savepoint => True
  | .delete true | .prepareSelect true => faults .savepoint = false
  | .prepareInsert true => faults .savepoint = false ∧ faults (.prepareSelect true) = false
  | .delete false | .prepareSelect false => Reached faults true
  | .prepareInsert false => Reached faults true ∧ faults (.prepareSelect false) = false
  -- the step that finds no more rows, or that fails, is the last one
  | .step forward i => Reached faults forward ∧ i ≤ (rowsRead faults db project forward).length
  | .insert forward i =>
    Reached faults forward ∧ i < (groupsOf (rowsRead faults db project forward)).length
  | .release => Reached faults false ∧ ∀ forward, (inserted faults db project forward).failedGroups = 0
  | .rollback => faults .savepoint = false ∧ ¬ CheckedPass faults db project

/-- The statement fails: by a fault, or an INSERT on a key that a kept row has. -/
def StatementFails (st : Statement) : Prop :=
  faults st = true ∨ ∃ forward i group, st = .insert forward i ∧
    (groupsOf (rowsRead faults db project forward))[i]? = some group ∧
    ∃ r ∈ keptTable faults db project forward, r.id = group.1

end Build

/-- The row of a group with all its ids. -/
def packedRow (project : Nat) (group : Nat × List Nat) : AdjacencyRow :=
  ⟨group.1, project, some (PackedWords.pack 8 group.2)⟩

/-- The tables after the build hold the other projects' rows and a row with all the ids for every
    group of the project's relation rows. -/
def BuiltFromAll (db built : GraphDb) (project : Nat) : Prop :=
  ∀ forward, tableOf built forward = (tableOf db forward).filter (·.project ≠ project) ++
    (groupsOf (selected db project forward)).map (packedRow project)

/-- What the build is meant to be. -/
structure BuildsAtomically (fp : BuildFaults) (db : GraphDb) (project : Nat) : Prop where
  undone : (∃ st, Executes fp.faults db project st ∧ StatementFails fp.faults db project st) →
    buildCSR fp.faults db project = (false, db)
  complete : (buildCSR fp.faults db project).1 = true →
    BuiltFromAll db (buildCSR fp.faults db project).2 project

/-! ## Rows and groups -/

/-- Rows are missing only behind a step that failed. -/
theorem readRows_complete {ρ : Type} {fails : Nat → Bool} {i : Nat} {rows : List ρ}
    (h : ∀ j ≤ (readRows fails i rows).length, fails (i + j) = false) :
    readRows fails i rows = rows := by
  induction rows generalizing i with
  | nil => rfl
  | cons r rest ih =>
      have hfirst : fails i = false := h 0 (Nat.zero_le _)
      have hread : readRows fails i (r :: rest) = r :: readRows fails (i + 1) rest := by
        rw [readRows, hfirst]
        rfl
      rw [hread] at h ⊢
      rw [ih]
      intro j hj
      have hlater := h (j + 1) (Nat.succ_le_succ hj)
      rwa [Nat.add_comm j 1, ← Nat.add_assoc] at hlater

theorem selected_sorted (db : GraphDb) (project : Nat) (forward : Bool) :
    (selected db project forward).Pairwise (fun a b => a.1 ≤ b.1) := by
  cases forward with
  | false => exact sorted_byKey _
  | true => exact sorted_byKey _

theorem groupsOf_keys {rows : List (Nat × Nat)} (h : rows.Pairwise (fun a b => a.1 ≤ b.1)) :
    ((groupsOf rows).map (·.1)).Nodup :=
  Runs.nodup_keys_runs (h.filter _)

section Build

variable (faults : Faults) (db : GraphDb) (project : Nat)

theorem rowsRead_sorted (forward : Bool) :
    (rowsRead faults db project forward).Pairwise (fun a b => a.1 ≤ b.1) :=
  (selected_sorted db project forward).sublist (readRows_initial _ _ _).sublist

theorem inserted_passes_iff (forward : Bool) :
    (inserted faults db project forward).failedGroups = 0 ↔
      (∀ i < (groupsOf (rowsRead faults db project forward)).length,
        faults (.insert forward i) = false) ∧
      ∀ group ∈ groupsOf (rowsRead faults db project forward),
        ∀ r ∈ keptTable faults db project forward, r.id ≠ group.1 := by
  have hpasses := insertGroups_passes_iff (fun i => faults (.insert forward i)) project
    ⟨keptTable faults db project forward, 0, 0⟩
    (groupsOf_keys (rowsRead_sorted faults db project forward))
  simp only [Nat.zero_add] at hpasses
  rw [inserted, packGroups_eq]
  exact hpasses

theorem inserted_table {forward : Bool}
    (hok : (inserted faults db project forward).failedGroups = 0) :
    (inserted faults db project forward).table = keptTable faults db project forward ++
      (groupsOf (rowsRead faults db project forward)).map (groupRow project) := by
  rw [inserted, packGroups_eq] at hok ⊢
  exact (insertGroups_ok (by exact hok)).1

/-- The checked statements go through exactly when no fault meets them and no group is refused. -/
theorem checkedPass_iff :
    CheckedPass faults db project ↔
      faults .savepoint = false ∧ (∀ forward, Prepared faults forward) ∧
        (∀ forward, (inserted faults db project forward).failedGroups = 0) ∧
        faults .release = false := by
  constructor
  · intro h
    refine ⟨h.savepoint, h.prepared, ?_, h.release⟩
    intro forward
    exact (inserted_passes_iff faults db project forward).mpr ⟨h.inserts forward, h.fresh forward⟩
  · rintro ⟨hsavepoint, hprepared, hinserted, hrelease⟩
    have hpasses := fun forward => (inserted_passes_iff faults db project forward).mp
      (hinserted forward)
    exact ⟨hsavepoint, hprepared, fun forward => (hpasses forward).1,
      fun forward => (hpasses forward).2, hrelease⟩

theorem buildCSR_of_pass (h : CheckedPass faults db project) :
    buildCSR faults db project =
      (true, { db with adjacency := (inserted faults db project true).table
                       adjacencyRev := (inserted faults db project false).table }) := by
  obtain ⟨hsavepoint, hprepared, hinserted, hrelease⟩ :=
    (checkedPass_iff faults db project).mp h
  have hforward := hinserted true
  have hreverse := hinserted false
  unfold inserted keptTable rowsRead tableOf selected at hforward hreverse ⊢
  unfold buildCSR
  simp only [hsavepoint, (hprepared true).1, (hprepared true).2, (hprepared false).1,
    (hprepared false).2, hrelease, Bool.false_eq_true, if_false, if_true, or_self, or_false]
    at hforward hreverse ⊢
  rw [hforward, hreverse, if_neg (Nat.lt_irrefl 0)]

theorem buildCSR_of_not_pass (hundo : faults .rollback = false)
    (h : ¬ CheckedPass faults db project) : buildCSR faults db project = (false, db) := by
  rw [checkedPass_iff] at h
  unfold inserted keptTable rowsRead tableOf selected Prepared at h
  unfold buildCSR rollback
  dsimp only
  rw [hundo]
  by_cases hsavepoint : faults .savepoint = true
  · rw [if_pos hsavepoint]
  · rw [if_neg hsavepoint]
    by_cases hforward : faults (.prepareSelect true) = true ∨ faults (.prepareInsert true) = true
    · rw [if_pos hforward]
      rfl
    · rw [if_neg hforward]
      by_cases hreverse : faults (.prepareSelect false) = true ∨
          faults (.prepareInsert false) = true
      · rw [if_pos hreverse]
        rfl
      · rw [if_neg hreverse, if_pos]
        · rfl
        · by_contra hdone
          rw [not_or, Nat.not_lt, Nat.le_zero, Nat.add_eq_zero_iff] at hdone
          rw [not_or] at hforward hreverse
          refine h ⟨by simpa using hsavepoint, ?_, ?_, by simpa using hdone.2⟩
          · rintro (_ | _)
            · exact ⟨by simpa using hreverse.1, by simpa using hreverse.2⟩
            · exact ⟨by simpa using hforward.1, by simpa using hforward.2⟩
          · rintro (_ | _)
            · exact hdone.1.2
            · exact hdone.1.1

/-! ## When a build is all or nothing -/

/-- What the build relies on without looking: every DELETE and every step of a SELECT goes through,
    and every group fits into a BLOB. -/
structure UncheckedPass : Prop where
  delete : ∀ forward, faults (.delete forward) = false
  step : ∀ forward, ∀ i ≤ (selected db project forward).length, faults (.step forward i) = false
  fits : ∀ forward, ∀ group ∈ groupsOf (selected db project forward), group.2.length ≤ kMaxGroup

theorem rowsRead_all {faults : Faults} {db : GraphDb} {project : Nat} {forward : Bool}
    (h : ∀ i ≤ (rowsRead faults db project forward).length, faults (.step forward i) = false) :
    rowsRead faults db project forward = selected db project forward := by
  refine readRows_complete ?_
  intro j hj
  rw [Nat.zero_add]
  exact h j hj

theorem steps_pass_iff (forward : Bool) :
    (∀ i ≤ (rowsRead faults db project forward).length, faults (.step forward i) = false) ↔
      ∀ i ≤ (selected db project forward).length, faults (.step forward i) = false := by
  constructor
  · intro h
    have hall := rowsRead_all h
    rwa [hall] at h
  · intro h i hi
    exact h i (Nat.le_trans hi (readRows_initial _ _ _).length_le)

theorem groupRow_eq_packedRow_iff (group : Nat × List Nat) :
    groupRow project group = packedRow project group ↔ group.2.length ≤ kMaxGroup := by
  have hlen : (PackedWords.pack 8 group.2).length = group.2.length * 8 :=
    PackedWords.length_pack 8 group.2
  constructor
  · intro heq
    have hblob : bindBlob (PackedWords.pack 8 group.2) = some (PackedWords.pack 8 group.2) := by
      rw [groupRow, packedRow, AdjacencyRow.mk.injEq] at heq
      exact heq.2.2
    have hshort := length_bindBlob (PackedWords.pack 8 group.2)
    rw [hblob, Option.getD_some, hlen] at hshort
    unfold kMaxLength at hshort
    unfold kMaxGroup
    omega
  · intro hle
    have hfits : (PackedWords.pack 8 group.2).length ≤ kMaxLength := by
      rw [hlen]
      unfold kMaxLength
      unfold kMaxGroup at hle
      omega
    rw [groupRow, packedRow, bindBlob_of_le hfits]

/-- A statement that fails in a build whose checked statements go through is a DELETE or a step. -/
theorem unchecked_of_fails {st : Statement} (hpass : CheckedPass faults db project)
    (hexec : Executes faults db project st) (hfail : StatementFails faults db project st) :
    ∃ forward, st = .delete forward ∧ faults (.delete forward) = true ∨
      ∃ i ≤ (rowsRead faults db project forward).length,
        st = .step forward i ∧ faults (.step forward i) = true := by
  rcases hfail with hfault | ⟨forward, i, group, rfl, hgroup, r, hr, hid⟩
  · cases st with
    | savepoint => exact absurd hfault (by simp [hpass.savepoint])
    | delete forward => exact ⟨forward, Or.inl ⟨rfl, hfault⟩⟩
    | prepareSelect forward => exact absurd hfault (by simp [(hpass.prepared forward).1])
    | prepareInsert forward => exact absurd hfault (by simp [(hpass.prepared forward).2])
    | step forward i => exact ⟨forward, Or.inr ⟨i, hexec.2, rfl, hfault⟩⟩
    | insert forward i => exact absurd hfault (by simp [hpass.inserts forward i hexec.2])
    | rollback => exact absurd hpass hexec.2
    | release => exact absurd hfault (by simp [hpass.release])
  · exact absurd hid (hpass.fresh forward group (List.mem_of_getElem? hgroup) r hr)

/-- What a build leaves when its DELETEs and its steps go through too. -/
theorem tableOf_buildCSR (hpass : CheckedPass faults db project)
    (hdelete : ∀ forward, faults (.delete forward) = false)
    (hread : ∀ forward, ∀ i ≤ (rowsRead faults db project forward).length,
      faults (.step forward i) = false) (forward : Bool) :
    tableOf (buildCSR faults db project).2 forward =
      (tableOf db forward).filter (·.project ≠ project) ++
        (groupsOf (selected db project forward)).map (groupRow project) := by
  have hinserted := ((checkedPass_iff faults db project).mp hpass).2.2.1 forward
  have hbuilt : tableOf (buildCSR faults db project).2 forward =
      (inserted faults db project forward).table := by
    rw [buildCSR_of_pass faults db project hpass]
    cases forward with
    | false => rfl
    | true => rfl
  have hkept : keptTable faults db project forward =
      (tableOf db forward).filter (·.project ≠ project) := by
    rw [keptTable, deleteProject, hdelete forward]
    rfl
  rw [hbuilt, inserted_table faults db project hinserted, hkept, rowsRead_all (hread forward)]

end Build

theorem unchecked_of_atomic {fp : BuildFaults} {db : GraphDb} {project : Nat}
    (hatomic : BuildsAtomically fp db project) (hpass : CheckedPass fp.faults db project) :
    UncheckedPass fp.faults db project := by
  have hbuild := buildCSR_of_pass fp.faults db project hpass
  have hreached : ∀ forward, Reached fp.faults forward := fun forward =>
    ⟨hpass.savepoint, hpass.prepared true, fun _ => hpass.prepared false⟩
  -- the build returns `true`, so no statement that ran has failed
  have hnone : ∀ st, Executes fp.faults db project st → fp.faults st = false := by
    intro st hexec
    by_contra hfault
    have hundone := hatomic.undone ⟨st, hexec, Or.inl (by simpa using hfault)⟩
    rw [hbuild] at hundone
    exact absurd (congrArg Prod.fst hundone) (by simp)
  have hdelete : ∀ forward, fp.faults (.delete forward) = false := by
    rintro (_ | _)
    · exact hnone _ (hreached true)
    · exact hnone _ hpass.savepoint
  have hread : ∀ forward, ∀ i ≤ (rowsRead fp.faults db project forward).length,
      fp.faults (.step forward i) = false := fun forward i hi =>
    hnone (.step forward i) ⟨hreached forward, hi⟩
  refine ⟨hdelete, fun forward => (steps_pass_iff _ _ _ _).mp (hread forward), ?_⟩
  intro forward group hgroup
  have hall := hatomic.complete (by rw [hbuild]) forward
  rw [tableOf_buildCSR _ _ _ hpass hdelete hread] at hall
  have hrows := List.append_cancel_left hall
  exact (groupRow_eq_packedRow_iff project group).mp (List.map_inj_left.mp hrows group hgroup)

theorem atomic_of_unchecked {fp : BuildFaults} {db : GraphDb} {project : Nat}
    (h : CheckedPass fp.faults db project → UncheckedPass fp.faults db project) :
    BuildsAtomically fp db project := by
  by_cases hpass : CheckedPass fp.faults db project
  · have hunchecked := h hpass
    have hbuild := buildCSR_of_pass fp.faults db project hpass
    have hread := fun forward => (steps_pass_iff _ _ _ forward).mpr (hunchecked.step forward)
    refine ⟨?_, ?_⟩
    · rintro ⟨st, hexec, hfail⟩
      obtain ⟨forward, ⟨_, hdelete⟩ | ⟨i, hi, _, hstep⟩⟩ :=
        unchecked_of_fails _ _ _ hpass hexec hfail
      · exact absurd hdelete (by simp [hunchecked.delete forward])
      · exact absurd hstep (by simp [hread forward i hi])
    · intro _ forward
      have hrows : (groupsOf (selected db project forward)).map (groupRow project) =
          (groupsOf (selected db project forward)).map (packedRow project) :=
        List.map_congr_left fun group hgroup =>
          (groupRow_eq_packedRow_iff project group).mpr (hunchecked.fits forward group hgroup)
      rw [tableOf_buildCSR _ _ _ hpass hunchecked.delete hread, hrows]
  · have hbuild := buildCSR_of_not_pass fp.faults db project fp.undoes hpass
    refine ⟨fun _ => hbuild, ?_⟩
    intro htrue
    rw [hbuild] at htrue
    exact absurd htrue (by simp)

/-- **A build is all or nothing exactly when what it does not look at goes through, or something it
    does look at fails as well.** -/
theorem buildCSR_atomic_iff (fp : BuildFaults) (db : GraphDb) (project : Nat) :
    BuildsAtomically fp db project ↔
      (CheckedPass fp.faults db project → UncheckedPass fp.faults db project) :=
  ⟨unchecked_of_atomic, atomic_of_unchecked⟩

/-! ## A truncated table -/

/-- One CALLS relation. -/
def oneCallDb : GraphDb where
  relations := [⟨1, 8, 9, kCallType, by decide, by decide⟩]
  entityProject := fun _ => some 1
  adjacency := []
  adjacencyRev := []

/-- The first step of the forward SELECT fails: it is taken for the end of the rows. -/
def firstStepFails : BuildFaults := ⟨fun st => decide (st = .step true 0), by decide⟩

/-- The build returns `true` with an empty forward table. -/
theorem buildCSR_publishes_truncated : ¬ BuildsAtomically firstStepFails oneCallDb 1 := by
  intro hatomic
  have hpass : CheckedPass firstStepFails.faults oneCallDb 1 := by
    refine ⟨rfl, fun forward => ⟨by simp [firstStepFails], by simp [firstStepFails]⟩,
      fun forward i _ => by simp [firstStepFails], ?_, rfl⟩
    intro forward group _ r hr
    have hempty : keptTable firstStepFails.faults oneCallDb 1 forward = [] := by
      cases forward with
      | false => rfl
      | true => rfl
    rw [hempty] at hr
    exact absurd hr List.not_mem_nil
  have hstep := (unchecked_of_atomic hatomic hpass).step true 0 (Nat.zero_le _)
  exact absurd hstep (by decide)

end CodeScope.Store
