import CodeScope.Index.StreamingPipeline

/-! # No file is lost or duplicated in the pipeline

The proof is an outline: `Good` speaks of the shared state, `Assertion` of one thread. What a step
can do to the shared state is said once (`Effect`, `act_spec`); `Good` and the assertions of the
other threads are kept by every effect.

The hand-over rests on the counter: it is raised before a temporary worker exists and lowered as the
last thing a worker does, so it is never below the number of live temporary workers, and the main
thread sees it at zero only after the monitor has ended. -/

namespace CodeScope.Index

open Interleaving

variable {n : Nat} {R : Type}

/-! ## The temporary workers that have not ended -/

/-- The temporary workers that have been created and have not ended. -/
def live (σ : Shared n R) : Finset Nat :=
  (Finset.range σ.spawned).filter fun j => σ.exited (.temp j) = false

theorem mem_live {σ : Shared n R} {j : Nat} :
    j ∈ live σ ↔ j < σ.spawned ∧ σ.exited (.temp j) = false := by
  simp [live]

theorem live_exit {σ : Shared n R} {w : Thread n} (hw : w.isTemp = false) :
    live (σ.exit w) = live σ := by
  ext j
  have hne : Thread.temp j ≠ w := by
    rintro rfl
    exact Bool.noConfusion hw
  rw [mem_live, mem_live]
  simp only [Shared.exit, Function.update_of_ne hne]

theorem live_leave (σ : Shared n R) (j : Nat) : live (σ.exit (.temp j)) = (live σ).erase j := by
  ext k
  rw [Finset.mem_erase, mem_live, mem_live]
  by_cases hk : k = j
  · subst hk
    simp [Shared.exit]
  · have hne : (Thread.temp k : Thread n) ≠ .temp j := fun h => hk (Thread.temp.inj h)
    simp only [Shared.exit, Function.update_of_ne hne, hk, ne_eq, not_false_eq_true, true_and]

theorem card_live_spawn (σ : Shared n R) :
    (live { σ with spawned := σ.spawned + 1 }).card ≤ (live σ).card + 1 := by
  have hsub : live { σ with spawned := σ.spawned + 1 } ⊆ insert σ.spawned (live σ) := by
    intro j hj
    rw [mem_live] at hj
    rw [Finset.mem_insert, mem_live]
    rcases Nat.lt_succ_iff_lt_or_eq.mp hj.1 with hlt | heq
    · exact .inr ⟨hlt, hj.2⟩
    · exact .inl heq
  exact (Finset.card_le_card hsub).trans (Finset.card_insert_le _ _)

/-! ## The outline -/

/-- The invariant of the shared state. -/
structure Good (S : Setup) (σ : Shared n R) : Prop where
  claims : σ.claims = List.range (min σ.nextJob S.jobs)
  drained : ∀ i, σ.exited (.fixed i) = true → S.jobs ≤ σ.nextJob
  ended : σ.parseDone = true → ∀ i, σ.exited (.fixed i) = true
  active : (live σ).card ≤ σ.activeParseThreads
  closed : σ.queue.done = true →
    σ.parseDone = true ∧ σ.exited .monitor = true ∧ live σ = ∅
  dropped : σ.dropped = 0
  written : σ.filesWritten = σ.batches.flatten.length

/-- What holds of the shared state while a thread stands at a point. -/
def Assertion (S : Setup) : Thread n → Pc R → Shared n R → Prop
  | .main, .joinWorker k, σ => ∀ i : Fin n, i.val < k → σ.exited (.fixed i) = true
  | .main, .endParse, σ => ∀ i, σ.exited (.fixed i) = true
  | .main, .joinMonitor, σ => σ.parseDone = true
  | .main, .awaitTemps, σ => σ.parseDone = true ∧ σ.exited .monitor = true
  | .main, .closeQueue, σ => σ.parseDone = true ∧ σ.exited .monitor = true ∧ live σ = ∅
  | .main, .joinWriter, _ => True
  | .main, .returned, _ => True
  | .monitor, .spawn, σ | .monitor, .lower, σ =>
    σ.exited .monitor = false ∧ (live σ).card + 1 ≤ σ.activeParseThreads
  | .monitor, .monitorStart, σ | .monitor, .loopTest, σ | .monitor, .wakeTest, σ
  | .monitor, .loadActive, σ | .monitor, .grabCores, σ | .monitor, .raise, σ
  | .monitor, .monitorEnd, σ => σ.exited .monitor = false
  | .monitor, .stopped, σ => σ.exited .monitor = true
  | .writer, .popFirst batch, σ | .writer, .popMore batch, σ | .writer, .testDone batch, σ
  | .writer, .flush batch, σ => σ.batches.flatten ++ batch ++ σ.queue.items = σ.pushes
  | .writer, .flushLast batch, σ =>
    σ.queue.done = true ∧ σ.batches.flatten ++ batch = σ.pushes
  | .writer, .writerEnd, σ | .writer, .written, σ =>
    σ.queue.done = true ∧ σ.batches.flatten = σ.pushes
  | .fixed i, .claim, σ | .fixed i, .parse _, σ | .fixed i, .push _, σ =>
    σ.exited (.fixed i) = false
  | .fixed i, .leave, σ => σ.exited (.fixed i) = false ∧ S.jobs ≤ σ.nextJob
  | .fixed i, .gone, σ => σ.exited (.fixed i) = true
  | .temp j, .unborn, σ => σ.exited (.temp j) = false
  | .temp j, .testParseDone, σ | .temp j, .testCores, σ | .temp j, .claim, σ
  | .temp j, .parse _, σ | .temp j, .push _, σ | .temp j, .leave, σ => j ∈ live σ
  | .temp j, .gone, σ => σ.exited (.temp j) = true
  | _, _, _ => False

/-- **What a step does to the shared state**, with what is known when it is taken. -/
inductive Effect (S : Setup) (σ : Shared n R) : Thread n → Shared n R → Prop
  | same (w : Thread n) : Effect S σ w σ
  | claim (w : Thread n) : Effect S σ w (σ.takeJob S.jobs)
  | push (w : Thread n) (r : R) (isOpen : σ.queue.done = false) :
      Effect S σ w { σ with
        queue := { σ.queue with items := σ.queue.items ++ [r] }
        pushes := σ.pushes ++ [r] }
  | pop (v : R) (rest : List R) (items : σ.queue.items = v :: rest) :
      Effect S σ .writer { σ with queue := { σ.queue with items := rest } }
  | write (batch : List R) : Effect S σ .writer (σ.writeBatch batch)
  | endParse (joined : ∀ i, σ.exited (.fixed i) = true) :
      Effect S σ .main { σ with parseDone := true }
  | closeQueue (ended : σ.parseDone = true) (joined : σ.exited .monitor = true)
      (drained : live σ = ∅) : Effect S σ .main { σ with queue := σ.queue.markDone }
  | raise : Effect S σ .monitor { σ with activeParseThreads := σ.activeParseThreads + 1 }
  | spawn (running : σ.exited .monitor = false)
      (room : (live σ).card + 1 ≤ σ.activeParseThreads) :
      Effect S σ .monitor { σ with spawned := σ.spawned + 1 }
  | lower (room : (live σ).card + 1 ≤ σ.activeParseThreads) :
      Effect S σ .monitor { σ with activeParseThreads := σ.activeParseThreads - 1 }
  | exit (w : Thread n) (notTemp : w.isTemp = false)
      (drained : ∀ i, w = .fixed i → S.jobs ≤ σ.nextJob) : Effect S σ w (σ.exit w)
  | leave (j : Nat) (alive : j ∈ live σ) :
      Effect S σ (.temp j)
        { σ.exit (.temp j) with activeParseThreads := σ.activeParseThreads - 1 }

/-! ## The steps of each thread -/

section Steps

variable {S : Setup} {σ : Shared n R} {c : Choice R} {pc : Pc R} {r : Shared n R × Pc R}

theorem act_main (h : act S .main c σ pc = some r) (hσ : Good S σ)
    (hA : Assertion S .main pc σ) : Effect S σ .main r.1 ∧ Assertion S .main r.2 r.1 := by
  cases pc
  case joinWorker k =>
    have hjoined : ∀ i : Fin n, i.val < k → σ.exited (.fixed i) = true := hA
    simp only [act] at h
    split_ifs at h with hk hexit
    · obtain rfl := Option.some.inj h
      refine ⟨.same _, ?_⟩
      show ∀ i : Fin n, i.val < k + 1 → σ.exited (.fixed i) = true
      intro i hi
      by_cases hik : i.val = k
      · obtain rfl : i = ⟨k, hk⟩ := Fin.ext hik
        exact hexit
      · exact hjoined i (by omega)
    · obtain rfl := Option.some.inj h
      exact ⟨.same _, fun i => hjoined i (by omega)⟩
  case endParse =>
    obtain rfl := Option.some.inj h
    exact ⟨.endParse hA, rfl⟩
  case joinMonitor =>
    simp only [act] at h
    split_ifs at h with hexit
    obtain rfl := Option.some.inj h
    exact ⟨.same _, hA, hexit⟩
  case awaitTemps =>
    obtain rfl := Option.some.inj h
    obtain ⟨hdone, hmonitor⟩ := hA
    refine ⟨.same _, ?_⟩
    by_cases hzero : 0 < σ.activeParseThreads
    · rw [if_pos hzero]
      exact ⟨hdone, hmonitor⟩
    · rw [if_neg hzero]
      have hcard := hσ.active
      have hnone : live σ = ∅ := Finset.card_eq_zero.mp (by omega)
      exact ⟨hdone, hmonitor, hnone⟩
  case closeQueue =>
    obtain rfl := Option.some.inj h
    exact ⟨.closeQueue hA.1 hA.2.1 hA.2.2, trivial⟩
  case joinWriter =>
    simp only [act] at h
    split_ifs at h with hexit
    obtain rfl := Option.some.inj h
    exact ⟨.same _, trivial⟩
  case returned => exact absurd h (by simp [act])
  all_goals exact hA.elim

theorem act_monitor (h : act S .monitor c σ pc = some r) (hσ : Good S σ)
    (hA : Assertion S .monitor pc σ) :
    Effect S σ .monitor r.1 ∧ Assertion S .monitor r.2 r.1 := by
  cases pc
  case monitorStart =>
    obtain rfl := Option.some.inj h
    refine ⟨.same _, ?_⟩
    split_ifs <;> exact hA
  case loopTest =>
    obtain rfl := Option.some.inj h
    refine ⟨.same _, ?_⟩
    split_ifs <;> exact hA
  case wakeTest =>
    obtain rfl := Option.some.inj h
    refine ⟨.same _, ?_⟩
    split_ifs <;> exact hA
  case loadActive =>
    obtain rfl := Option.some.inj h
    refine ⟨.same _, ?_⟩
    split_ifs <;> exact hA
  case grabCores =>
    cases c
    case yes =>
      obtain rfl := Option.some.inj h
      exact ⟨.same _, hA⟩
    case no =>
      obtain rfl := Option.some.inj h
      exact ⟨.same _, hA⟩
    all_goals exact absurd h (by simp [act])
  case raise =>
    obtain rfl := Option.some.inj h
    exact ⟨.raise, hA, Nat.succ_le_succ hσ.active⟩
  case spawn =>
    cases c
    case yes =>
      obtain rfl := Option.some.inj h
      exact ⟨.spawn hA.1 hA.2, hA.1⟩
    case no =>
      obtain rfl := Option.some.inj h
      exact ⟨.same _, hA⟩
    all_goals exact absurd h (by simp [act])
  case lower =>
    obtain rfl := Option.some.inj h
    exact ⟨.lower hA.2, hA.1⟩
  case monitorEnd =>
    obtain rfl := Option.some.inj h
    refine ⟨.exit _ rfl (fun i hi => by cases hi), ?_⟩
    show Function.update σ.exited .monitor true .monitor = true
    rw [Function.update_self]
  case stopped => exact absurd h (by simp [act])
  all_goals exact hA.elim

theorem act_writer (h : act S .writer c σ pc = some r)
    (hA : Assertion S .writer pc σ) : Effect S σ .writer r.1 ∧ Assertion S .writer r.2 r.1 := by
  cases pc
  case popFirst batch =>
    have hall : σ.batches.flatten ++ batch ++ σ.queue.items = σ.pushes := hA
    obtain ⟨⟨queue, value⟩, hpop, rfl⟩ := Option.map_eq_some_iff.mp h
    rcases BoundedQueue.pop_cases hpop with
      ⟨rfl, hdone, hitems, rfl⟩ | ⟨v, rest, rfl, hitems, rfl⟩
    · rw [hitems, List.append_nil] at hall
      refine ⟨.same _, ?_⟩
      show Assertion S .writer (if batch = [] then .writerEnd else .flushLast batch) σ
      by_cases hb : batch = []
      · rw [if_pos hb]
        rw [hb, List.append_nil] at hall
        exact ⟨hdone, hall⟩
      · rw [if_neg hb]
        exact ⟨hdone, hall⟩
    · rw [hitems] at hall
      refine ⟨.pop v rest hitems, ?_⟩
      show σ.batches.flatten ++ (batch ++ [v]) ++ rest = σ.pushes
      rw [← hall]
      simp
  case popMore batch =>
    have hall : σ.batches.flatten ++ batch ++ σ.queue.items = σ.pushes := hA
    simp only [act] at h
    by_cases hroom : batch.length < writerBatchSize
    · rw [if_pos hroom] at h
      obtain ⟨⟨queue, value⟩, hpop, rfl⟩ := Option.map_eq_some_iff.mp h
      rcases BoundedQueue.pop_cases hpop with
        ⟨rfl, -, -, rfl⟩ | ⟨v, rest, rfl, hitems, rfl⟩
      · exact ⟨.same _, hA⟩
      · rw [hitems] at hall
        refine ⟨.pop v rest hitems, ?_⟩
        show σ.batches.flatten ++ (batch ++ [v]) ++ rest = σ.pushes
        rw [← hall]
        simp
    · rw [if_neg hroom] at h
      obtain rfl := Option.some.inj h
      exact ⟨.same _, hA⟩
  case testDone batch =>
    obtain rfl := Option.some.inj h
    refine ⟨.same _, ?_⟩
    split_ifs <;> exact hA
  case flush batch =>
    have hall : σ.batches.flatten ++ batch ++ σ.queue.items = σ.pushes := hA
    obtain rfl := Option.some.inj h
    refine ⟨.write batch, ?_⟩
    show (σ.batches ++ [batch]).flatten ++ [] ++ σ.queue.items = σ.pushes
    rw [← hall]
    simp
  case flushLast batch =>
    obtain ⟨hdone, hall⟩ := hA
    obtain rfl := Option.some.inj h
    refine ⟨.write batch, hdone, ?_⟩
    show (σ.batches ++ [batch]).flatten = σ.pushes
    rw [← hall]
    simp
  case writerEnd =>
    obtain rfl := Option.some.inj h
    exact ⟨.exit _ rfl (fun i hi => by cases hi), hA⟩
  case written => exact absurd h (by simp [act])
  all_goals exact hA.elim

theorem push_open {w : Thread n} {result : R} (h : act S w c σ (.push result) = some r)
    (hopen : σ.queue.done = false) :
    r = ({ σ with
      queue := { σ.queue with items := σ.queue.items ++ [result] }
      pushes := σ.pushes ++ [result] }, workerLoop w) := by
  obtain ⟨⟨queue, accepted⟩, hpush, rfl⟩ := Option.map_eq_some_iff.mp h
  obtain ⟨rfl, rfl⟩ := BoundedQueue.push_of_open hpush hopen
  rfl

theorem queue_open_of_fixed (hσ : Good S σ) {i : Fin n} (hi : σ.exited (.fixed i) = false) :
    σ.queue.done = false := by
  by_contra hnot
  have hended := hσ.ended (hσ.closed (by simpa using hnot)).1 i
  rw [hi] at hended
  exact Bool.noConfusion hended

theorem queue_open_of_temp (hσ : Good S σ) {j : Nat} (hj : j ∈ live σ) :
    σ.queue.done = false := by
  by_contra hnot
  have hnone := (hσ.closed (by simpa using hnot)).2.2
  rw [hnone] at hj
  exact absurd hj (Finset.notMem_empty j)

theorem act_fixed {i : Fin n} (h : act S (.fixed i) c σ pc = some r) (hσ : Good S σ)
    (hA : Assertion S (.fixed i) pc σ) :
    Effect S σ (.fixed i) r.1 ∧ Assertion S (.fixed i) r.2 r.1 := by
  cases pc
  case claim =>
    have hrun : σ.exited (.fixed i) = false := hA
    obtain rfl := Option.some.inj h
    refine ⟨.claim _, ?_⟩
    by_cases hjob : σ.nextJob < S.jobs
    · rw [if_pos hjob]
      exact hrun
    · rw [if_neg hjob]
      exact ⟨hrun, Nat.le_succ_of_le (Nat.le_of_not_lt hjob)⟩
  case parse idx =>
    cases c
    case parsed result =>
      cases result with
      | none | some result =>
          obtain rfl := Option.some.inj h
          exact ⟨.same _, hA⟩
    all_goals exact absurd h (by simp [act])
  case push result =>
    have hopen := queue_open_of_fixed hσ hA
    obtain rfl := push_open h hopen
    exact ⟨.push _ result hopen, hA⟩
  case leave =>
    obtain ⟨-, hdrained⟩ := hA
    obtain rfl := Option.some.inj h
    refine ⟨.exit _ rfl (fun _ _ => hdrained), ?_⟩
    show Function.update σ.exited (.fixed i) true (.fixed i) = true
    rw [Function.update_self]
  case gone => exact absurd h (by simp [act])
  all_goals exact hA.elim

theorem act_temp {j : Nat} (h : act S (.temp j) c σ pc = some r) (hσ : Good S σ)
    (hA : Assertion S (.temp j) pc σ) :
    Effect S σ (.temp j) r.1 ∧ Assertion S (.temp j) r.2 r.1 := by
  cases pc
  case unborn =>
    simp only [act] at h
    split_ifs at h with hborn
    obtain rfl := Option.some.inj h
    exact ⟨.same _, mem_live.mpr ⟨hborn, hA⟩⟩
  case testParseDone =>
    obtain rfl := Option.some.inj h
    refine ⟨.same _, ?_⟩
    split_ifs <;> exact hA
  case testCores =>
    cases c
    case yes =>
      obtain rfl := Option.some.inj h
      exact ⟨.same _, hA⟩
    case no =>
      obtain rfl := Option.some.inj h
      exact ⟨.same _, hA⟩
    all_goals exact absurd h (by simp [act])
  case claim =>
    have hlive : j ∈ live σ := hA
    obtain rfl := Option.some.inj h
    refine ⟨.claim _, ?_⟩
    split_ifs <;> exact hlive
  case parse idx =>
    cases c
    case parsed result =>
      cases result with
      | none | some result =>
          obtain rfl := Option.some.inj h
          exact ⟨.same _, hA⟩
    all_goals exact absurd h (by simp [act])
  case push result =>
    have hlive : j ∈ live σ := hA
    have hopen := queue_open_of_temp hσ hlive
    obtain rfl := push_open h hopen
    exact ⟨.push _ result hopen, hlive⟩
  case leave =>
    obtain rfl := Option.some.inj h
    refine ⟨.leave j hA, ?_⟩
    show Function.update σ.exited (.temp j) true (.temp j) = true
    rw [Function.update_self]
  case gone => exact absurd h (by simp [act])
  all_goals exact hA.elim

/-- **Every step has an effect and reaches the thread's next assertion.** -/
theorem act_spec {w : Thread n} (h : act S w c σ pc = some r) (hσ : Good S σ)
    (hA : Assertion S w pc σ) : Effect S σ w r.1 ∧ Assertion S w r.2 r.1 := by
  cases w with
  | main => exact act_main h hσ hA
  | monitor => exact act_monitor h hσ hA
  | writer => exact act_writer h hA
  | fixed i => exact act_fixed h hσ hA
  | temp j => exact act_temp h hσ hA

end Steps

/-! ## Every effect keeps the outline -/

section Effects

variable {S : Setup} {σ σ' : Shared n R} {w : Thread n}

theorem Effect.good (h : Effect S σ w σ') (hσ : Good S σ) : Good S σ' := by
  cases h with
  | same => exact hσ
  | claim =>
      refine { hσ with claims := ?_, drained := ?_ }
      · simp only [Shared.takeJob]
        rw [hσ.claims]
        by_cases hjob : σ.nextJob < S.jobs
        · rw [if_pos hjob, Nat.min_eq_left hjob.le, Nat.min_eq_left (by omega),
            List.range_succ]
        · rw [if_neg hjob, Nat.min_eq_right (by omega), Nat.min_eq_right (by omega)]
      · intro i hi
        exact Nat.le_succ_of_le (hσ.drained i hi)
  | push _ _ isOpen =>
      refine { hσ with closed := ?_ }
      intro hdone
      have hdone' : σ.queue.done = true := hdone
      rw [isOpen] at hdone'
      exact Bool.noConfusion hdone'
  | pop => exact { hσ with }
  | write batch =>
      refine { hσ with written := ?_ }
      simp only [Shared.writeBatch, List.flatten_append, List.length_append, hσ.written,
        List.flatten_singleton]
  | endParse joined =>
      exact { hσ with ended := fun _ => joined, closed := fun hdone => ⟨rfl, (hσ.closed hdone).2⟩ }
  | closeQueue ended joined drained =>
      exact { hσ with closed := fun _ => ⟨ended, joined, drained⟩ }
  | raise => exact { hσ with active := Nat.le_succ_of_le hσ.active }
  | spawn running room =>
      refine { hσ with active := (card_live_spawn σ).trans room, closed := ?_ }
      intro hdone
      have hmonitor := (hσ.closed hdone).2.1
      rw [running] at hmonitor
      exact Bool.noConfusion hmonitor
  | lower room =>
      have hle : (live σ).card ≤ σ.activeParseThreads - 1 := by omega
      exact { hσ with active := hle }
  | exit _ notTemp drained =>
      have hkeep : ∀ t, σ.exited t = true → (σ.exit w).exited t = true := by
        intro t ht
        by_cases htw : t = w
        · rw [htw]
          exact Function.update_self ..
        · exact (Function.update_of_ne htw ..).trans ht
      refine { hσ with drained := ?_, ended := ?_, active := ?_, closed := ?_ }
      · intro i hi
        by_cases hiw : Thread.fixed i = w
        · exact drained i hiw.symm
        · exact hσ.drained i ((Function.update_of_ne hiw ..).symm.trans hi)
      · intro hdone i
        exact hkeep _ (hσ.ended hdone i)
      · rw [live_exit notTemp]
        exact hσ.active
      · intro hdone
        obtain ⟨hparse, hmonitor, hnone⟩ := hσ.closed hdone
        exact ⟨hparse, hkeep _ hmonitor, (live_exit notTemp).trans hnone⟩
  | leave j alive =>
      have hother : ∀ t, t ≠ .temp j → (σ.exit (.temp j)).exited t = σ.exited t :=
        fun t ht => Function.update_of_ne ht ..
      have hlive : live { σ.exit (.temp j) with activeParseThreads := σ.activeParseThreads - 1 } =
          (live σ).erase j := live_leave σ j
      refine { hσ with drained := ?_, ended := ?_, active := ?_, closed := ?_ }
      · intro i hi
        exact hσ.drained i ((hother (.fixed i) (by simp)).symm.trans hi)
      · intro hdone i
        exact (hother (.fixed i) (by simp)).trans (hσ.ended hdone i)
      · rw [hlive, Finset.card_erase_of_mem alive]
        exact Nat.sub_le_sub_right hσ.active 1
      · intro hdone
        obtain ⟨-, -, hnone⟩ := hσ.closed hdone
        rw [hnone] at alive
        exact absurd alive (Finset.notMem_empty j)

/-! What an effect of one thread leaves alone, as far as the other threads rely on it. -/

theorem Effect.exited_of_ne (h : Effect S σ w σ') {t : Thread n} (ht : t ≠ w) :
    σ'.exited t = σ.exited t := by
  cases h with
  | exit | leave => exact Function.update_of_ne ht ..
  | _ => rfl

theorem Effect.exited_mono (h : Effect S σ w σ') {t : Thread n} (ht : σ.exited t = true) :
    σ'.exited t = true := by
  by_cases htw : t = w
  · subst htw
    cases h with
    | exit | leave => exact Function.update_self ..
    | _ => exact ht
  · rw [h.exited_of_ne htw, ht]

theorem Effect.parseDone_mono (h : Effect S σ w σ') (hdone : σ.parseDone = true) :
    σ'.parseDone = true := by
  cases h with
  | endParse => rfl
  | _ => exact hdone

theorem Effect.nextJob_mono (h : Effect S σ w σ') : σ.nextJob ≤ σ'.nextJob := by
  cases h with
  | claim => exact Nat.le_succ σ.nextJob
  | _ => exact le_refl _

theorem Effect.done_mono (h : Effect S σ w σ') (hdone : σ.queue.done = true) :
    σ'.queue.done = true := by
  cases h with
  | closeQueue => rfl
  | _ => exact hdone

theorem Effect.mem_live (h : Effect S σ w σ') {j : Nat} (hj : Thread.temp j ≠ w)
    (hlive : j ∈ live σ) : j ∈ live σ' := by
  rw [CodeScope.Index.mem_live] at hlive ⊢
  rw [h.exited_of_ne hj]
  cases h with
  | spawn => exact ⟨Nat.lt_succ_of_lt hlive.1, hlive.2⟩
  | _ => exact hlive

theorem Effect.live_of_monitor_exited (h : Effect S σ w σ') (hend : σ.exited .monitor = true)
    (hnone : live σ = ∅) : live σ' = ∅ := by
  cases h with
  | spawn running =>
      rw [running] at hend
      exact Bool.noConfusion hend
  | exit _ notTemp => exact (live_exit notTemp).trans hnone
  | leave j alive =>
      rw [hnone] at alive
      exact absurd alive (Finset.notMem_empty j)
  | _ => exact hnone

/-- The place the monitor has made in the counter stays free. -/
theorem Effect.room (h : Effect S σ w σ') (hw : w ≠ .monitor)
    (hroom : (live σ).card + 1 ≤ σ.activeParseThreads) :
    (live σ').card + 1 ≤ σ'.activeParseThreads := by
  cases h with
  | raise | spawn | lower => exact absurd rfl hw
  | exit _ notTemp =>
      rw [live_exit notTemp]
      exact hroom
  | leave j alive =>
      have hpos : 0 < (live σ).card := Finset.card_pos.mpr ⟨j, alive⟩
      have hlive : live { σ.exit (.temp j) with activeParseThreads := σ.activeParseThreads - 1 } =
          (live σ).erase j := live_leave σ j
      have hcount : (live σ).card - 1 + 1 ≤ σ.activeParseThreads - 1 := by omega
      rw [hlive, Finset.card_erase_of_mem alive]
      exact hcount
  | _ => exact hroom

theorem Effect.arrivals (h : Effect S σ w σ') (hw : w ≠ .writer) :
    σ'.batches = σ.batches ∧ ∃ more, σ'.queue.items = σ.queue.items ++ more ∧
      σ'.pushes = σ.pushes ++ more ∧ (σ.queue.done = true → more = []) := by
  cases h with
  | push _ r isOpen =>
      refine ⟨rfl, [r], rfl, rfl, ?_⟩
      intro hdone
      rw [isOpen] at hdone
      exact Bool.noConfusion hdone
  | pop => exact absurd rfl hw
  | write => exact absurd rfl hw
  | _ => exact ⟨rfl, [], (List.append_nil _).symm, (List.append_nil _).symm, fun _ => rfl⟩

/-! ### The assertions of the other threads -/

variable {pc : Pc R}

theorem Effect.stable_main (h : Effect S σ w σ') (hA : Assertion S .main pc σ) :
    Assertion S .main pc σ' := by
  cases pc
  case joinWorker k => exact fun i hi => h.exited_mono (hA i hi)
  case endParse => exact fun i => h.exited_mono (hA i)
  case joinMonitor => exact h.parseDone_mono hA
  case awaitTemps => exact ⟨h.parseDone_mono hA.1, h.exited_mono hA.2⟩
  case closeQueue =>
    obtain ⟨hdone, hmonitor, hnone⟩ := hA
    exact ⟨h.parseDone_mono hdone, h.exited_mono hmonitor,
      h.live_of_monitor_exited hmonitor hnone⟩
  case joinWriter => trivial
  case returned => trivial
  all_goals exact hA.elim

theorem Effect.stable_monitor (h : Effect S σ w σ') (hw : Thread.monitor ≠ w)
    (hA : Assertion S .monitor pc σ) : Assertion S .monitor pc σ' := by
  have hsame := h.exited_of_ne hw
  cases pc
  case spawn => exact ⟨hsame.trans hA.1, h.room hw.symm hA.2⟩
  case lower => exact ⟨hsame.trans hA.1, h.room hw.symm hA.2⟩
  case stopped => exact hsame.trans hA
  case monitorStart => exact hsame.trans hA
  case loopTest => exact hsame.trans hA
  case wakeTest => exact hsame.trans hA
  case loadActive => exact hsame.trans hA
  case grabCores => exact hsame.trans hA
  case raise => exact hsame.trans hA
  case monitorEnd => exact hsame.trans hA
  all_goals exact hA.elim

theorem Effect.stable_writer (h : Effect S σ w σ') (hw : Thread.writer ≠ w)
    (hA : Assertion S .writer pc σ) : Assertion S .writer pc σ' := by
  obtain ⟨hbatches, more, hitems, hpushes, hclosed⟩ := h.arrivals hw.symm
  have hholding : ∀ batch, σ.batches.flatten ++ batch ++ σ.queue.items = σ.pushes →
      σ'.batches.flatten ++ batch ++ σ'.queue.items = σ'.pushes := by
    intro batch hall
    rw [hbatches, hitems, hpushes, ← hall, List.append_assoc _ σ.queue.items more]
  have hlast : ∀ batch, σ.queue.done = true ∧ σ.batches.flatten ++ batch = σ.pushes →
      σ'.queue.done = true ∧ σ'.batches.flatten ++ batch = σ'.pushes := by
    rintro batch ⟨hdone, hall⟩
    refine ⟨h.done_mono hdone, ?_⟩
    rw [hbatches, hpushes, hclosed hdone, List.append_nil, hall]
  cases pc
  case popFirst batch => exact hholding batch hA
  case popMore batch => exact hholding batch hA
  case testDone batch => exact hholding batch hA
  case flush batch => exact hholding batch hA
  case flushLast batch => exact hlast batch hA
  case writerEnd =>
    obtain ⟨hdone, hall⟩ := hlast [] ⟨hA.1, by rw [List.append_nil]; exact hA.2⟩
    exact ⟨hdone, by rw [List.append_nil] at hall; exact hall⟩
  case written =>
    obtain ⟨hdone, hall⟩ := hlast [] ⟨hA.1, by rw [List.append_nil]; exact hA.2⟩
    exact ⟨hdone, by rw [List.append_nil] at hall; exact hall⟩
  all_goals exact hA.elim

theorem Effect.stable_fixed (h : Effect S σ w σ') {i : Fin n} (hw : Thread.fixed i ≠ w)
    (hA : Assertion S (.fixed i) pc σ) : Assertion S (.fixed i) pc σ' := by
  have hsame := h.exited_of_ne hw
  cases pc
  case claim => exact hsame.trans hA
  case parse => exact hsame.trans hA
  case push => exact hsame.trans hA
  case leave => exact ⟨hsame.trans hA.1, hA.2.trans h.nextJob_mono⟩
  case gone => exact hsame.trans hA
  all_goals exact hA.elim

theorem Effect.stable_temp (h : Effect S σ w σ') {j : Nat} (hw : Thread.temp j ≠ w)
    (hA : Assertion S (.temp j) pc σ) : Assertion S (.temp j) pc σ' := by
  have hsame := h.exited_of_ne hw
  cases pc
  case unborn => exact hsame.trans hA
  case testParseDone => exact h.mem_live hw hA
  case testCores => exact h.mem_live hw hA
  case claim => exact h.mem_live hw hA
  case parse => exact h.mem_live hw hA
  case push => exact h.mem_live hw hA
  case leave => exact h.mem_live hw hA
  case gone => exact hsame.trans hA
  all_goals exact hA.elim

/-- **No thread disturbs the assertion of another.** -/
theorem Effect.stable (h : Effect S σ w σ') {b : Thread n} (hb : b ≠ w)
    (hA : Assertion S b pc σ) : Assertion S b pc σ' := by
  cases b with
  | main => exact h.stable_main hA
  | monitor => exact h.stable_monitor hb hA
  | writer => exact h.stable_writer hb hA
  | fixed i => exact h.stable_fixed hb hA
  | temp j => exact h.stable_temp hb hA

end Effects

/-! ## Whole runs -/

section Runs

variable [DecidableEq R] {S : Setup}

theorem outline (S : Setup) (n : Nat) :
    Outline (pipeline S n R) (fun _ _ => True) (Good S) (Assertion S) where
  env_shared _ e := e.elim
  env_local _ e := e.elim
  step _ _ _ _ _ hσ hA h := by
    obtain ⟨heffect, hnext⟩ := act_spec h hσ (hA _)
    exact ⟨heffect.good hσ, hnext⟩
  stable _ _ _ _ _ hb _ hσ hA h := (act_spec h hσ (hA _)).1.stable hb (hA _)

/-- A state some interleaving leads to. -/
def Reachable (S : Setup) (n capacity : Nat)
    (s : World (Thread n) (Shared n R) (Pc R)) : Prop :=
  (pipeline S n R).Reaches (fun _ _ => True) (initial n capacity R) s

theorem good_of_reachable {capacity : Nat} {s : World (Thread n) (Shared n R) (Pc R)}
    (h : Reachable S n capacity s) :
    Good S s.shared ∧ ∀ w, Assertion S w (s.locals w) s.shared := by
  refine (outline S n).sound h ?_ ?_
  · have hnone : live (initial n capacity R).shared = ∅ := rfl
    refine ⟨?_, ?_, ?_, ?_, ?_, rfl, rfl⟩
    · simp [initial]
    · intro i hi
      exact Bool.noConfusion hi
    · intro hdone
      exact Bool.noConfusion hdone
    · rw [hnone]
      exact Nat.zero_le _
    · intro hdone
      exact Bool.noConfusion hdone
  · intro w
    cases w with
    | main => exact fun i hi => absurd hi (Nat.not_lt_zero _)
    | monitor => rfl
    | writer => rfl
    | fixed i => rfl
    | temp j => rfl

/-- **The pipeline neither loses nor duplicates a file.** -/
theorem pipeline_exact (S : Setup) (n capacity : Nat) (hworkers : 0 < n)
    (s : World (Thread n) (Shared n R) (Pc R)) (h : Reachable S n capacity s) :
    (∀ idx, s.shared.claims.count idx ≤ 1) ∧
    (s.shared.dropped = 0 ∧
      (s.shared.queue.done = true → ∀ w result, s.locals w ≠ .push result)) ∧
    (s.shared.parseDone = true → ∀ idx < S.jobs, s.shared.claims.count idx = 1) ∧
    (s.locals .writer = .written →
      s.shared.batches.flatten = s.shared.pushes ∧
        s.shared.filesWritten = s.shared.pushes.length) := by
  obtain ⟨hgood, hassert⟩ := good_of_reachable h
  refine ⟨?_, ⟨hgood.dropped, ?_⟩, ?_, ?_⟩
  · intro idx
    rw [hgood.claims]
    exact List.nodup_iff_count_le_one.mp List.nodup_range idx
  · intro hdone w result hpc
    have hA := hassert w
    rw [hpc] at hA
    cases w with
    | main => exact hA
    | monitor => exact hA
    | writer => exact hA
    | fixed i =>
        rw [queue_open_of_fixed hgood hA] at hdone
        exact Bool.noConfusion hdone
    | temp j =>
        rw [queue_open_of_temp hgood hA] at hdone
        exact Bool.noConfusion hdone
  · intro hdone idx hidx
    have hall : S.jobs ≤ s.shared.nextJob :=
      hgood.drained ⟨0, hworkers⟩ (hgood.ended hdone ⟨0, hworkers⟩)
    rw [hgood.claims, Nat.min_eq_right hall]
    exact List.count_eq_one_of_mem List.nodup_range (List.mem_range.mpr hidx)
  · intro hwritten
    have hA := hassert .writer
    rw [hwritten] at hA
    have hflat : s.shared.batches.flatten = s.shared.pushes := hA.2
    exact ⟨hflat, by rw [hgood.written, hflat]⟩

end Runs

/-- One file, one worker, no scheduler: the run in which every thread moves as soon as it can. -/
def oneFileRun : List (Label (Thread 1) Empty (Choice Nat)) :=
  [.thread (.fixed 0) .go, .thread (.fixed 0) (.parsed (some 7)), .thread (.fixed 0) .go,
    .thread (.fixed 0) .go, .thread (.fixed 0) .go, .thread .monitor .go, .thread .monitor .go,
    .thread .main .go, .thread .main .go, .thread .main .go, .thread .main .go,
    .thread .main .go, .thread .main .go, .thread .writer .go, .thread .writer .go,
    .thread .writer .go, .thread .writer .go, .thread .writer .go, .thread .writer .go]

theorem reachable_oneFileRun : Reachable ⟨1, 1, false⟩ 1 8
    ((pipeline ⟨1, 1, false⟩ 1 Nat).outcome (initial 1 8 Nat) oneFileRun) :=
  Program.Reaches.of_outcome (by simp [oneFileRun, Program.Meets]) (by decide)

theorem pipeline_exact_oneFileRun :
    ((pipeline ⟨1, 1, false⟩ 1 Nat).outcome (initial 1 8 Nat) oneFileRun).shared.batches.flatten =
      [7] :=
  ((pipeline_exact ⟨1, 1, false⟩ 1 8 (by decide) _ reachable_oneFileRun).2.2.2 rfl).1

end CodeScope.Index
