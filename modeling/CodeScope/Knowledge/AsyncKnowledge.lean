import Mathlib
import CodeScope.Library.Traces

/-! # The background knowledge builder

`launchAsyncKnowledgeBuilder` starts a thread that rebuilds the derived tables of a project,
`joinAsyncKnowledgeBuilder` waits for it (or detaches it on a timeout), and
`waitForKnowledgeBuilder` hands the store mutex to an FFI caller. They communicate through
process-wide variables and a thread handle. A step here is a whole `launch` or `join` (each holds
`g_thread_mutex` throughout), one access of a builder body to those variables, or one attempt of a
caller to get the store mutex; any number of callers and of (detached) bodies interleave. -/

namespace CodeScope.Knowledge

/-! ## States and steps -/

/-- Where a builder body is: launched, inside its work with the store mutex held, past
    `g_async_running.store(false)`, past the section that sets `g_builder_done`, ended. -/
inductive Pc where
  | created
  | working
  | cleared
  | signalled
  | exited
deriving DecidableEq, Repr

/-- Before the store of `g_async_running`. -/
def Pc.building : Pc → Bool
  | .created | .working => true
  | _ => false

/-- Before the section that sets `g_builder_done`. -/
def Pc.unsignalled : Pc → Bool
  | .created | .working | .cleared => true
  | _ => false

/-- Launched and not exited. -/
def Pc.live : Pc → Bool
  | .exited => false
  | _ => true

/-- A thread that `launch` created. `db` is the connection of `ctx->store`, `none` when the context
    or its store is null. -/
structure Body (K : Type) where
  db : Option K
  pc : Pc
deriving DecidableEq, Repr

/-- Who holds the store mutex. -/
inductive Owner (C : Type) where
  | body (i : Nat)
  | caller (c : C)
deriving DecidableEq, Repr

/-- The process-wide variables, and the bodies launched so far; a thread is named by its place in
    `bodies`. `interrupted` records the connections that `sqlite3_interrupt` was called on. -/
structure State (K C : Type) where
  asyncRunning : Bool
  builderThread : Option Nat
  storeMutex : Option (Owner C × Nat)
  builderDone : Bool
  builderDb : Option K
  storeStallStartMs : Int
  storeInterruptIssued : Bool
  interrupted : List K
  bodies : List (Body K)
deriving DecidableEq, Repr

inductive Step (K C : Type) where
  | launch (db : Option K) (created : Bool)
  | body (i : Nat)
  | join
  | joinTimeout
  | lockStore (c : C)
  | lockTimeout (c : C) (now : Int)
  | unlockStore (c : C)
deriving DecidableEq, Repr

variable {K C : Type}

/-- The values the globals are defined with. -/
def initial : State K C where
  asyncRunning := false
  builderThread := none
  storeMutex := none
  builderDone := true
  builderDb := none
  storeStallStartMs := 0
  storeInterruptIssued := false
  interrupted := []
  bodies := []

/-- `kBuilderStallInterruptMs`. -/
def builderStallInterruptMs : Int := 300000

/-- `g_builder_thread.join()` can return: the thread it names has ended. -/
def State.canJoin (s : State K C) : Bool :=
  match s.builderThread with
  | none => true
  | some i => (s.bodies[i]?.map (·.pc)) == some .exited

/-- `launchAsyncKnowledgeBuilder`. A joinable thread is joined first, which blocks until it ends;
    `created` says whether the constructor of `std::thread` succeeds. -/
def launch (s : State K C) (db : Option K) (created : Bool) : Option (State K C) :=
  if s.canJoin = false then none
  else if s.asyncRunning then some { s with builderThread := none }
  else if created then
    some { s with
      asyncRunning := true
      builderDone := false
      builderThread := some s.bodies.length
      bodies := s.bodies ++ [⟨db, .created⟩] }
  else
    -- the exception leaves the function after both flags were written
    some { s with asyncRunning := true, builderDone := false, builderThread := none }

/-- The next access of body `i`. The path of a null store and the path of a build (whose exceptions
    are all caught) make the same accesses in the same order. -/
def bodyStep (s : State K C) (i : Nat) : Option (State K C) :=
  s.bodies[i]?.bind fun b =>
    let advance (pc : Pc) : List (Body K) := s.bodies.set i { b with pc }
    match b.pc with
    | .created =>
        if s.storeMutex.isNone then
          some { s with storeMutex := some (.body i, 1), bodies := advance .working }
        else none
    | .working => some { s with asyncRunning := false, bodies := advance .cleared }
    | .cleared => some { s with builderDone := true, bodies := advance .signalled }
    | .signalled => some { s with storeMutex := none, bodies := advance .exited }
    | .exited => none

/-- `joinAsyncKnowledgeBuilder` when the wait does not time out: `g_builder_done` was seen, and the
    thread ends. -/
def join (s : State K C) : Option (State K C) :=
  if s.builderThread = none then some s
  else if s.builderDone && s.canJoin then some { s with builderThread := none }
  else none

/-- `joinAsyncKnowledgeBuilder` when the wait times out: the thread is detached. -/
def joinTimeout (s : State K C) : Option (State K C) :=
  if s.builderThread = none ∨ s.builderDone = true then none
  else some { s with builderThread := none }

/-- An acquisition in `waitForKnowledgeBuilder` that succeeds, at first or in the grace period; the
    mutex is recursive. -/
def lockStore [DecidableEq C] (s : State K C) (c : C) : Option (State K C) :=
  let healthy := { s with storeStallStartMs := 0, storeInterruptIssued := false }
  match s.storeMutex with
  | none => some { healthy with storeMutex := some (.caller c, 1) }
  | some (o, n) =>
      if o = .caller c then some { healthy with storeMutex := some (o, n + 1) } else none

/-- When the stall began that an acquisition failing at `now` belongs to (0 is "not stalled"). -/
def State.stallStart (s : State K C) (now : Int) : Int :=
  if s.storeStallStartMs = 0 then now else s.storeStallStartMs

/-- The first acquisition times out at `now`: a stall is recorded, and a long one interrupts the
    builder's connection, once. The grace period ends in `lockStore` or in the exception, which
    changes nothing. -/
def lockTimeout [DecidableEq C] (s : State K C) (c : C) (now : Int) : Option (State K C) :=
  match s.storeMutex with
  | none => none
  | some (o, _) =>
      if o = .caller c then none
      else
        if s.storeInterruptIssued = false ∧
            builderStallInterruptMs ≤ now - s.stallStart now then
          some { s with
            storeStallStartMs := s.stallStart now
            storeInterruptIssued := true
            interrupted := s.interrupted ++ s.builderDb.toList }
        else some { s with storeStallStartMs := s.stallStart now }

/-- The guard of a caller is destroyed. -/
def unlockStore [DecidableEq C] (s : State K C) (c : C) : Option (State K C) :=
  match s.storeMutex with
  | none => none
  | some (o, n) =>
      if o = .caller c then
        some { s with storeMutex := if n ≤ 1 then none else some (o, n - 1) }
      else none

/-- One step of the process. -/
def next [DecidableEq C] (s : State K C) : Step K C → Option (State K C)
  | .launch db created => launch s db created
  | .body i => bodyStep s i
  | .join => join s
  | .joinTimeout => joinTimeout s
  | .lockStore c => lockStore s c
  | .lockTimeout c now => lockTimeout s c now
  | .unlockStore c => unlockStore s c

/-! ## Counting bodies -/

/-- How many bodies are at a point that `p` describes. -/
def State.count (s : State K C) (p : Pc → Bool) : Nat := s.bodies.countP fun b => p b.pc

/-- A body that moves leaves one count and enters another. -/
theorem countP_set_pc {bodies : List (Body K)} {i : Nat} {b : Body K} (hb : bodies[i]? = some b)
    (pc : Pc) (p : Pc → Bool) :
    (bodies.set i { b with pc }).countP (fun b => p b.pc) + (p b.pc).toNat =
      bodies.countP (fun b => p b.pc) + (p pc).toNat := by
  obtain ⟨hi, hget⟩ := List.getElem?_eq_some_iff.mp hb
  subst hget
  have hpos : (p bodies[i].pc).toNat ≤ bodies.countP (fun b => p b.pc) := by
    by_cases hp : p bodies[i].pc = true
    · have hmem : 0 < bodies.countP (fun b => p b.pc) :=
        List.countP_pos_iff.mpr ⟨bodies[i], List.getElem_mem hi, hp⟩
      simp only [hp, Bool.toNat_true]
      omega
    · simp [Bool.not_eq_true _ ▸ hp]
  rw [List.countP_set hi]
  by_cases hp : p bodies[i].pc = true <;> by_cases hq : p pc = true <;> simp_all

theorem count_pos_of_get {s : State K C} {i : Nat} {b : Body K} (hb : s.bodies[i]? = some b)
    {p : Pc → Bool} (hp : p b.pc = true) : 0 < s.count p :=
  List.countP_pos_iff.mpr ⟨b, List.mem_of_getElem? hb, hp⟩

theorem count_le_of_imp (s : State K C) {p q : Pc → Bool}
    (h : ∀ pc, p pc = true → q pc = true) : s.count p ≤ s.count q :=
  List.countP_mono_left fun b _ hb => h b.pc hb

theorem count_building_le_unsignalled (s : State K C) :
    s.count Pc.building ≤ s.count Pc.unsignalled :=
  count_le_of_imp s fun pc => by cases pc <;> simp [Pc.building, Pc.unsignalled]

theorem count_unsignalled_le_live (s : State K C) : s.count Pc.unsignalled ≤ s.count Pc.live :=
  count_le_of_imp s fun pc => by cases pc <;> simp [Pc.unsignalled, Pc.live]

/-! ## What a step can do -/

/-- What a step does to the flags, to the recorded connection and to the bodies. -/
inductive Effect (s s' : State K C) : Step K C → Prop where
  /-- A join, an access of a caller to the store mutex, a launch that finds a builder running. -/
  | quiet {l : Step K C} (running : s'.asyncRunning = s.asyncRunning)
      (done : s'.builderDone = s.builderDone) (bodies : s'.bodies = s.bodies)
      (launching : ∀ db created, l = .launch db created → s.asyncRunning = true)
      (moving : ∀ i, l ≠ .body i) : Effect s s' l
  | launched {db : Option K} (idle : s.asyncRunning = false) (running : s'.asyncRunning = true)
      (done : s'.builderDone = false) (bodies : s'.bodies = s.bodies ++ [⟨db, .created⟩]) :
      Effect s s' (.launch db true)
  | failed {db : Option K} (idle : s.asyncRunning = false) (running : s'.asyncRunning = true)
      (done : s'.builderDone = false) (bodies : s'.bodies = s.bodies) :
      Effect s s' (.launch db false)
  | entered {i : Nat} {b : Body K} (found : s.bodies[i]? = some b) (pc : b.pc = .created)
      (running : s'.asyncRunning = s.asyncRunning) (done : s'.builderDone = s.builderDone)
      (bodies : s'.bodies = s.bodies.set i { b with pc := .working }) : Effect s s' (.body i)
  | cleared {i : Nat} {b : Body K} (found : s.bodies[i]? = some b) (pc : b.pc = .working)
      (running : s'.asyncRunning = false) (done : s'.builderDone = s.builderDone)
      (bodies : s'.bodies = s.bodies.set i { b with pc := .cleared }) : Effect s s' (.body i)
  | signalled {i : Nat} {b : Body K} (found : s.bodies[i]? = some b) (pc : b.pc = .cleared)
      (running : s'.asyncRunning = s.asyncRunning) (done : s'.builderDone = true)
      (bodies : s'.bodies = s.bodies.set i { b with pc := .signalled }) : Effect s s' (.body i)
  | exited {i : Nat} {b : Body K} (found : s.bodies[i]? = some b) (pc : b.pc = .signalled)
      (running : s'.asyncRunning = s.asyncRunning) (done : s'.builderDone = s.builderDone)
      (bodies : s'.bodies = s.bodies.set i { b with pc := .exited }) : Effect s s' (.body i)

theorem launch_effect {s s' : State K C} {db : Option K} {created : Bool}
    (h : launch s db created = some s') : Effect s s' (.launch db created) := by
  simp only [launch] at h
  split at h
  · simp at h
  · split at h
    · next hrunning =>
        obtain rfl := Option.some.inj h
        exact .quiet rfl rfl rfl (fun _ _ _ => hrunning) (by simp)
    · next hidle =>
        have hidle : s.asyncRunning = false := by simpa using hidle
        split at h
        · next hcreated =>
            obtain rfl := Option.some.inj h
            subst hcreated
            exact .launched hidle rfl rfl rfl
        · next hcreated =>
            obtain rfl := Option.some.inj h
            obtain rfl : created = false := by simpa using hcreated
            exact .failed hidle rfl rfl rfl

theorem bodyStep_effect {s s' : State K C} {i : Nat} (h : bodyStep s i = some s') :
    Effect s s' (.body i) := by
  obtain ⟨b, hb, h⟩ := Option.bind_eq_some_iff.mp h
  simp only at h
  cases hpc : b.pc with
  | created =>
      simp only [hpc] at h
      split at h
      · obtain rfl := Option.some.inj h
        exact .entered hb hpc rfl rfl rfl
      · simp at h
  | working | cleared | signalled =>
      simp only [hpc] at h
      obtain rfl := Option.some.inj h
      first
        | exact .cleared hb hpc rfl rfl rfl
        | exact .signalled hb hpc rfl rfl rfl
        | exact .exited hb hpc rfl rfl rfl
  | exited => simp [hpc] at h

section Runs

variable [DecidableEq C]

/-- **The steps of the process, by what they do.** -/
theorem next_effect {s s' : State K C} {l : Step K C} (h : next s l = some s') :
    Effect s s' l := by
  cases l with
  | launch db created => exact launch_effect h
  | body i => exact bodyStep_effect h
  | join | joinTimeout | lockStore _ | lockTimeout _ _ | unlockStore _ =>
      simp only [next, join, joinTimeout, lockStore, lockTimeout, unlockStore] at h
      repeat' split at h
      all_goals
        first
          | obtain rfl := Option.some.inj h
            exact .quiet rfl rfl rfl (by simp) (by simp)
          | simp at h

end Runs

/-! ## The bookkeeping -/

/-- While a body is live, the recorded connection is the one it works on. -/
def State.DbRecorded (s : State K C) : Prop :=
  ∀ b ∈ s.bodies, b.pc.live = true → ∀ db ∈ b.db, s.builderDb = some db

/-- The bookkeeping is exact: at most one body is live, `g_async_running` holds exactly while one is
    and `g_builder_done` exactly while none is, and the recorded connection is that of the body. -/
structure State.Exact (s : State K C) : Prop where
  one : s.count Pc.live ≤ 1
  running : s.asyncRunning = true ↔ 0 < s.count Pc.live
  done : s.builderDone = true ↔ s.count Pc.live = 0
  recorded : s.DbRecorded

/-- At most one body is live, and each flag follows it up to the body's own write of that flag. -/
structure State.Announced (s : State K C) : Prop where
  one : s.count Pc.live ≤ 1
  running : s.asyncRunning = true ↔ 0 < s.count Pc.building
  done : s.builderDone = true ↔ s.count Pc.unsignalled = 0

/-- The steps that keep the bookkeeping exact: a launch that finds no builder running creates its
    thread, for a context without a store, and no body takes back `g_async_running` (which it does
    before it exits). -/
def Harmless (s : State K C) : Step K C → Prop
  | .launch db created => s.asyncRunning = false → created = true ∧ db = none
  | .body i => ∀ b ∈ s.bodies[i]?, b.pc ≠ .working
  | _ => True

/-- A launch that finds no builder running creates its thread, and finds none on its way out. -/
def Orderly (s : State K C) : Step K C → Prop
  | .launch _ created => s.asyncRunning = false → created = true ∧ s.count Pc.live = 0
  | _ => True

/-- No launch creates a body that has a store to work on. -/
def Storeless (s : State K C) : Step K C → Prop
  | .launch db created => s.asyncRunning = false → created = true → db = none
  | _ => True

/-- Nothing records a connection, so none can be interrupted. -/
def State.NothingRecorded (s : State K C) : Prop := s.builderDb = none ∧ s.interrupted = []

theorem count_initial (p : Pc → Bool) : (initial : State K C).count p = 0 := rfl

theorem exact_initial : (initial : State K C).Exact where
  one := by simp [count_initial]
  running := by
    rw [count_initial]
    simp [initial]
  done := by
    rw [count_initial]
    simp [initial]
  recorded := by simp [State.DbRecorded, initial]

theorem announced_initial : (initial : State K C).Announced where
  one := by simp [count_initial]
  running := by
    rw [count_initial]
    simp [initial]
  done := by
    rw [count_initial]
    simp [initial]

theorem dbRecorded_initial : (initial : State K C).DbRecorded := exact_initial.recorded

theorem nothingRecorded_initial : (initial : State K C).NothingRecorded := ⟨rfl, rfl⟩

section Steps

variable {s s' : State K C} {i : Nat} {b : Body K} {pc : Pc} {db : Option K}

theorem count_same (h : s'.bodies = s.bodies) (p : Pc → Bool) : s'.count p = s.count p := by
  rw [State.count, State.count, h]

theorem count_launched (h : s'.bodies = s.bodies ++ [⟨db, .created⟩]) (p : Pc → Bool) :
    s'.count p = s.count p + (p .created).toNat := by
  rw [State.count, State.count, h, List.countP_append]
  cases hp : p .created <;> simp [hp]

theorem count_moved (hb : s.bodies[i]? = some b) (h : s'.bodies = s.bodies.set i { b with pc })
    (p : Pc → Bool) : s'.count p + (p b.pc).toNat = s.count p + (p pc).toNat := by
  rw [State.count, State.count, h]
  exact countP_set_pc hb pc p

theorem dbRecorded_iff (hs : s.NothingRecorded) :
    s.DbRecorded ↔ ∀ b ∈ s.bodies, b.pc.live = true → b.db = none := by
  simp only [State.DbRecorded, hs.1, reduceCtorEq, imp_false, Option.mem_def]
  refine forall_congr' fun b => forall_congr' fun _ => forall_congr' fun _ => ?_
  exact Option.eq_none_iff_forall_ne_some.symm

theorem storeless_moved {bodies : List (Body K)} (hb : bodies[i]? = some b)
    (hlive : b.pc.live = true) (h : ∀ b ∈ bodies, b.pc.live = true → b.db = none) :
    ∀ b' ∈ bodies.set i { b with pc }, b'.pc.live = true → b'.db = none := by
  intro b' hb' hlive'
  rcases List.mem_or_eq_of_mem_set hb' with hold | rfl
  · exact h b' hold hlive'
  · exact h b (List.mem_of_getElem? hb) hlive

end Steps

section Preservation

variable [DecidableEq C] {s s' : State K C} {l : Step K C}

theorem next_recorded (h : next s l = some s') :
    s'.builderDb = s.builderDb ∧
      (s'.interrupted = s.interrupted ∨
        s'.interrupted = s.interrupted ++ s.builderDb.toList) := by
  cases l with
  | launch _ _ | body _ | join | joinTimeout | lockStore _ | lockTimeout _ _ | unlockStore _ =>
      simp only [next, launch, bodyStep, join, joinTimeout, lockStore, lockTimeout, unlockStore] at h
      grind

theorem nothingRecorded_step (hs : s.NothingRecorded) (h : next s l = some s') :
    s'.NothingRecorded := by
  obtain ⟨hdb, hint⟩ := next_recorded h
  refine ⟨hdb.trans hs.1, ?_⟩
  rcases hint with hint | hint <;> simp [hint, hs.1, hs.2]

theorem dbRecorded_step (hQ : s.NothingRecorded) (hs : s.DbRecorded) (hl : Storeless s l)
    (h : next s l = some s') : s'.DbRecorded := by
  rw [dbRecorded_iff hQ] at hs
  rw [dbRecorded_iff (nothingRecorded_step hQ h)]
  cases next_effect h with
  | quiet running done bodies _ _ | failed _ running done bodies => rw [bodies]; exact hs
  | launched idle running done bodies =>
      rw [bodies]
      intro b hb hlive
      rcases List.mem_append.mp hb with hold | hnew
      · exact hs b hold hlive
      · rw [List.mem_singleton.mp hnew]
        exact hl idle rfl
  | entered found pc running done bodies | cleared found pc running done bodies
  | signalled found pc running done bodies | exited found pc running done bodies =>
      rw [bodies]
      exact storeless_moved found (by rw [pc]; rfl) hs

/-- A body launched with a store to work on breaks the connection clause at once. -/
theorem not_dbRecorded_of_launch (hQ : s.NothingRecorded) (hl : ¬ Storeless s l)
    (h : next s l = some s') : ¬ s'.DbRecorded := by
  rw [dbRecorded_iff (nothingRecorded_step hQ h)]
  intro hs'
  cases next_effect h with
  | quiet running done bodies launching moving =>
      apply hl
      cases l with
      | launch db created => exact fun hidle => absurd (launching db created rfl) (by simp [hidle])
      | _ => exact trivial
  | launched idle running done bodies =>
      refine hl fun _ _ => ?_
      exact hs' ⟨_, .created⟩ (by rw [bodies]; simp) rfl
  | failed idle running done bodies => exact hl fun _ hcreated => absurd hcreated (by simp)
  | _ => exact hl trivial

end Preservation

/-- What harmless steps keep: exact bookkeeping, nothing recorded, and no body on its way out. -/
structure State.Undisturbed (s : State K C) : Prop where
  nothing : s.NothingRecorded
  exact : s.Exact
  building : s.count Pc.live = s.count Pc.building

theorem undisturbed_initial : (initial : State K C).Undisturbed :=
  ⟨nothingRecorded_initial, exact_initial, rfl⟩

theorem created_of_undisturbed {s : State K C} (hs : s.Undisturbed) {i : Nat} {b : Body K}
    (found : s.bodies[i]? = some b) (hlive : b.pc.live = true) (hpc : b.pc ≠ .working) :
    b.pc = .created := by
  by_contra hcreated
  -- marking the body as ended takes it out of the live count, but not out of the building count
  have hgone : ∃ s' : State K C, s'.bodies = s.bodies.set i { b with pc := .exited } :=
    ⟨{ s with bodies := _ }, rfl⟩
  obtain ⟨s', hbodies⟩ := hgone
  have hlives := count_moved found hbodies Pc.live
  have hbuildings := count_moved found hbodies Pc.building
  have hle := (count_building_le_unsignalled s').trans (count_unsignalled_le_live s')
  have heq := hs.building
  cases hb : b.pc <;> simp_all [Pc.live, Pc.building] <;> omega

section Flags

variable [DecidableEq C] {s s' : State K C} {l : Step K C}

theorem announced_step (hs : s.Announced) (hl : Orderly s l) (h : next s l = some s') :
    s'.Announced := by
  obtain ⟨hone, hrunning, hdone⟩ := hs
  have hbu := count_building_le_unsignalled s
  have hul := count_unsignalled_le_live s
  cases next_effect h with
  | quiet running done bodies launching moving =>
      refine ⟨?_, ?_, ?_⟩
      · rw [count_same bodies]; exact hone
      · rw [running, count_same bodies]; exact hrunning
      · rw [done, count_same bodies]; exact hdone
  | launched idle running done bodies =>
      have hnone := (hl idle).2
      have hlive := count_launched bodies Pc.live
      have hbuilding := count_launched bodies Pc.building
      have hunsignalled := count_launched bodies Pc.unsignalled
      simp only [Pc.live, Pc.building, Pc.unsignalled, Bool.toNat_true] at *
      exact ⟨by omega, iff_of_true running (by omega), iff_of_false (by simp [done]) (by omega)⟩
  | failed idle running done bodies => exact absurd (hl idle).1 (by simp)
  | entered found pc running done bodies | exited found pc running done bodies =>
      have hlive := count_moved found bodies Pc.live
      have hbuilding := count_moved found bodies Pc.building
      have hunsignalled := count_moved found bodies Pc.unsignalled
      simp only [pc, Pc.live, Pc.building, Pc.unsignalled, Nat.add_right_cancel_iff,
        Bool.toNat_true, Bool.toNat_false] at *
      exact ⟨by omega, by rw [running, hbuilding, hrunning], by rw [done, hunsignalled, hdone]⟩
  | cleared found pc running done bodies =>
      have hlive := count_moved found bodies Pc.live
      have hbuilding := count_moved found bodies Pc.building
      have hunsignalled := count_moved found bodies Pc.unsignalled
      simp only [pc, Pc.live, Pc.building, Pc.unsignalled, Nat.add_right_cancel_iff,
        Bool.toNat_true, Bool.toNat_false] at *
      -- the body that leaves was the only live one
      exact ⟨by omega, iff_of_false (by simp [running]) (by omega),
        by rw [done, hunsignalled, hdone]⟩
  | signalled found pc running done bodies =>
      have hlive := count_moved found bodies Pc.live
      have hbuilding := count_moved found bodies Pc.building
      have hunsignalled := count_moved found bodies Pc.unsignalled
      simp only [pc, Pc.live, Pc.building, Pc.unsignalled, Nat.add_right_cancel_iff,
        Bool.toNat_true, Bool.toNat_false] at *
      exact ⟨by omega, by rw [running, hbuilding, hrunning], iff_of_true done (by omega)⟩

/-- A thread that is not created leaves `g_async_running` with nobody to clear it, and a body
    launched beside one on its way out is a second live one. -/
theorem not_announced_of_step (hs : s.Announced) (hl : ¬ Orderly s l) (h : next s l = some s') :
    ¬ s'.Announced := by
  intro hs'
  cases next_effect h with
  | quiet running done bodies launching moving =>
      apply hl
      cases l with
      | launch db created => exact fun hidle => absurd (launching db created rfl) (by simp [hidle])
      | _ => exact trivial
  | launched idle running done bodies =>
      apply hl
      refine fun _ => ⟨rfl, ?_⟩
      have hlive := count_launched bodies Pc.live
      have hone := hs'.one
      simp only [Pc.live, Bool.toNat_true] at *
      omega
  | failed idle running done bodies =>
      have hbuilding := hs'.running.mp running
      rw [count_same bodies] at hbuilding
      exact absurd (hs.running.mpr hbuilding) (by simp [idle])
  | _ => exact hl trivial

theorem undisturbed_step (hs : s.Undisturbed) (hl : Harmless s l) (h : next s l = some s') :
    s'.Undisturbed := by
  have hstoreless : Storeless s l := by
    cases l with
    | launch db created => exact fun hidle _ => (hl hidle).2
    | _ => exact trivial
  have hnothing := nothingRecorded_step hs.nothing h
  have hrecorded := dbRecorded_step hs.nothing hs.exact.recorded hstoreless h
  obtain ⟨hone, hrunning, hdone, -⟩ := hs.exact
  have hsame := hs.building
  cases next_effect h with
  | quiet running done bodies launching moving =>
      refine ⟨hnothing, ⟨?_, ?_, ?_, hrecorded⟩, ?_⟩
      · rw [count_same bodies]; exact hone
      · rw [running, count_same bodies]; exact hrunning
      · rw [done, count_same bodies]; exact hdone
      · rw [count_same bodies, count_same bodies, hsame]
  | launched idle running done bodies =>
      have hnone : s.count Pc.live = 0 := by
        by_contra hlive
        have := hrunning.mpr (by omega)
        simp [idle] at this
      have hlive := count_launched bodies Pc.live
      have hbuilding := count_launched bodies Pc.building
      simp only [Pc.live, Pc.building, Bool.toNat_true] at *
      exact ⟨hnothing, ⟨by omega, iff_of_true running (by omega),
        iff_of_false (by simp [done]) (by omega), hrecorded⟩, by omega⟩
  | failed idle running done bodies => exact absurd (hl idle).1 (by simp)
  | entered found pc running done bodies =>
      have hlive := count_moved found bodies Pc.live
      have hbuilding := count_moved found bodies Pc.building
      simp only [pc, Pc.live, Pc.building, Nat.add_right_cancel_iff] at *
      exact ⟨hnothing, ⟨by omega, by rw [running, hlive, hrunning], by rw [done, hlive, hdone],
        hrecorded⟩, by omega⟩
  | cleared found pc running done bodies => exact absurd pc (hl _ found)
  | signalled found pc running done bodies | exited found pc running done bodies =>
      have hcreated := created_of_undisturbed hs found (by rw [pc]; rfl) (hl _ found)
      simp [pc] at hcreated

theorem not_exact_of_step (hs : s.Undisturbed) (hl : ¬ Harmless s l) (h : next s l = some s') :
    ¬ s'.Exact := by
  intro hs'
  cases next_effect h with
  | quiet running done bodies launching moving =>
      apply hl
      cases l with
      | launch db created => exact fun hidle => absurd (launching db created rfl) (by simp [hidle])
      | body i => exact absurd rfl (moving i)
      | _ => exact trivial
  | launched idle running done bodies =>
      apply not_dbRecorded_of_launch hs.nothing _ h hs'.recorded
      exact fun hstoreless => hl fun hidle => ⟨rfl, hstoreless hidle rfl⟩
  | failed idle running done bodies =>
      have hlive := hs'.running.mp running
      rw [count_same bodies] at hlive
      exact absurd (hs.exact.running.mpr hlive) (by simp [idle])
  | entered found pc running done bodies =>
      apply hl
      intro b hb
      obtain rfl := Option.some.inj (found.symm.trans hb)
      simp [pc]
  | cleared found pc running done bodies =>
      -- the body is still live when it takes `g_async_running` back
      have hlive := count_moved found bodies Pc.live
      simp only [pc, Pc.live, Nat.add_right_cancel_iff] at hlive
      have hpos := count_pos_of_get found (p := Pc.live) (by rw [pc]; rfl)
      exact absurd (hs'.running.mpr (by omega)) (by simp [running])
  | signalled found pc running done bodies | exited found pc running done bodies =>
      have hcreated := created_of_undisturbed hs found (by rw [pc]; rfl) (by simp [pc])
      simp [pc] at hcreated

end Flags

section Main

variable [DecidableEq C]

open Traces

/-- **When the bookkeeping is exact along a run.** As a whole: exactly when no launch leaves its
    thread uncreated or gives it a store, and no body gets to take back `g_async_running`. Up to the
    bodies' own writes, the flags are right and at most one body is live exactly when every launch
    that finds no builder running creates its thread and finds no live body. The recorded connection
    is right exactly when no launched body has a store. -/
theorem builder_bookkeeping (ls : List (Step K C)) :
    (Along next State.Exact initial ls ↔ Meets next Harmless initial ls) ∧
      (Along next State.Announced initial ls ↔ Meets next Orderly initial ls) ∧
      (Along next State.DbRecorded initial ls ↔ Meets next Storeless initial ls) := by
  refine ⟨?_, ?_, ?_⟩
  · exact along_iff_meets (fun _ hs => State.Undisturbed.exact hs)
      (fun _ _ _ hs hl h => undisturbed_step hs hl h)
      (fun _ _ _ hs hl h => not_exact_of_step hs hl h) undisturbed_initial ls
  · exact along_iff_meets (fun _ hs => hs) (fun _ _ _ hs hl h => announced_step hs hl h)
      (fun _ _ _ hs hl h => not_announced_of_step hs hl h) announced_initial ls
  · exact along_iff_meets (fun _ hs => And.right hs)
      (fun _ _ _ hs hl h => ⟨nothingRecorded_step hs.1 h, dbRecorded_step hs.1 hs.2 hl h⟩)
      (fun _ _ _ hs hl h => not_dbRecorded_of_launch hs.1 hl h)
      ⟨nothingRecorded_initial, dbRecorded_initial⟩ ls

/-- A launch whose thread cannot be created; a body launched for a store. Neither run keeps the
    bookkeeping exact: after the first `g_async_running` is set with no body, in the second no
    connection is recorded. -/
theorem bookkeeping_not_exact :
    ¬ (∀ ls : List (Step Nat Nat), Along next State.Exact initial ls) ∧
      (∃ s : State Nat Nat, next initial (.launch (some 7) false) = some s ∧
        s.asyncRunning = true ∧ s.builderDone = false ∧ s.bodies = []) ∧
      ∃ s : State Nat Nat, next initial (.launch (some 7) true) = some s ∧
        s.bodies = [⟨some 7, .created⟩] ∧ s.builderDb = none := by
  refine ⟨?_, ⟨_, rfl, rfl, rfl, rfl⟩, ⟨_, rfl, rfl, rfl⟩⟩
  intro h
  have hlast := (h [.launch (some 7) false]).2 _ rfl
  have hpos := (State.Exact.running hlast).mp rfl
  exact absurd hpos (by decide)

end Main

end CodeScope.Knowledge
