import CodeScope.Library.Interleaving

/-! # The shared pool of cores

`claim_cores` and `release_cores` are compare-and-swap loops on one counter in shared memory, each
followed by a bump of the generation. One step of a worker is one atomic access, so every
interleaving of the workers is a run of the program below. A worker gives back only what it holds.
-/

namespace CodeScope.Scheduler

open Interleaving

/-- The values a `u32` can take. -/
def u32 (n : ℕ) : ℕ := n % 2 ^ 32

/-- `u32::saturating_add` -/
def saturatingAdd (a b : ℕ) : ℕ := min (a + b) (2 ^ 32 - 1)

/-- The counters of `SchedState` that the two calls access. -/
structure Cores where
  available : ℕ
  generation : ℕ
deriving DecidableEq

/-- Where a worker stands: the access it performs next, with its local variables. -/
inductive CorePc where
  | idle
  -- claim_cores
  | claimLoad (maxWant : ℕ)
  | claimCas (maxWant avail : ℕ)
  | claimBump (take : ℕ)
  -- release_cores
  | releaseLoad (count : ℕ)
  | releaseCas (count avail : ℕ)
  | releaseBump
deriving DecidableEq

/-- A worker: the cores it holds, and what its last claim answered. -/
structure CoreWorker where
  pc : CorePc
  held : ℕ
  answer : Option ℕ
  /-- what the swaps of that claim have taken off the pool; no step reads it -/
  taken : ℕ
deriving DecidableEq

/-- What a worker can do: call one of the two, or perform the next access. -/
inductive CoreMove where
  | claim (maxWant : Fin (2 ^ 32))
  | release (count : Fin (2 ^ 32))
  | access
deriving DecidableEq

/-- One atomic access. -/
def coreAccess (s : Cores) (w : CoreWorker) : Option (Cores × CoreWorker) :=
  match w.pc with
  | .idle => none
  | .claimLoad maxWant =>
    if s.available = 0 then some (s, { w with pc := .idle, answer := some 0 })
    else some (s, { w with pc := .claimCas maxWant s.available })
  | .claimCas maxWant avail =>
    let take := min avail maxWant
    if s.available = avail then
      -- `avail - take`, in 32 bits
      some ({ s with available := u32 (avail + 2 ^ 32 - take) },
        { w with pc := .claimBump take, held := w.held + take, taken := w.taken + take })
    else some (s, { w with pc := .claimLoad maxWant })
  | .claimBump take =>
    some ({ s with generation := u32 (s.generation + 1) },
      { w with pc := .idle, answer := some take })
  | .releaseLoad count => some (s, { w with pc := .releaseCas count s.available })
  | .releaseCas count avail =>
    if s.available = avail then
      some ({ s with available := saturatingAdd avail count },
        { w with pc := .releaseBump, held := w.held - count })
    else some (s, { w with pc := .releaseLoad count })
  | .releaseBump => some ({ s with generation := u32 (s.generation + 1) }, { w with pc := .idle })

/-- Calls begin when the worker is idle; 0 cores are claimed or released without an access. -/
def coreAct : CoreMove → Cores → CoreWorker → Option (Cores × CoreWorker)
  | .claim maxWant, s, w =>
    if w.pc = .idle then
      if maxWant.val = 0 then some (s, { w with answer := some 0, taken := 0 })
      else some (s, { w with pc := .claimLoad maxWant.val, answer := none, taken := 0 })
    else none
  | .release count, s, w =>
    if w.pc = .idle ∧ count.val ≤ w.held then
      if count.val = 0 then some (s, w) else some (s, { w with pc := .releaseLoad count.val })
    else none
  | .access, s, w => coreAccess s w

section

variable (W : Type)

/-- The workers of a pool. -/
def corePool : Program W Empty CoreMove Cores CoreWorker where
  act _ := coreAct
  env e := e.elim

abbrev CoreWorld := World W Cores CoreWorker

/-- `SchedShm::create`, with workers that hold nothing. -/
def createPool (totalCores : Fin (2 ^ 32)) : CoreWorld W :=
  ⟨⟨totalCores.val, 0⟩, fun _ => ⟨.idle, 0, none, 0⟩⟩

end

/-! ## What one step does -/

/-- The local assertion: what a worker is about to give back it holds, and what a claim has taken
    is what it answers. -/
def CoreWorker.Sound (w : CoreWorker) : Prop :=
  match w.pc with
  | .idle => ∀ n ∈ w.answer, n = w.taken
  | .claimLoad _ => w.taken = 0 ∧ w.answer = none
  | .claimCas _ _ => w.taken = 0 ∧ w.answer = none
  | .claimBump take => w.taken = take ∧ w.answer = none
  | .releaseLoad count => count ≤ w.held ∧ ∀ n ∈ w.answer, n = w.taken
  | .releaseCas count _ => count ≤ w.held ∧ ∀ n ∈ w.answer, n = w.taken
  | .releaseBump => ∀ n ∈ w.answer, n = w.taken

theorem claim_no_wrap {avail take : ℕ} (hlt : avail < 2 ^ 32) (htake : take ≤ avail) :
    u32 (avail + 2 ^ 32 - take) = avail - take := by
  have hshift : avail + 2 ^ 32 - take = (avail - take) + 2 ^ 32 := by omega
  rw [u32, hshift, Nat.add_mod_right, Nat.mod_eq_of_lt (by omega)]

theorem release_no_saturation {avail count : ℕ} (h : avail + count < 2 ^ 32) :
    saturatingAdd avail count = avail + count := by
  rw [saturatingAdd, Nat.min_eq_left (by omega)]

/-- What a step leaves of the pool and the worker. -/
structure Keeps (s s' : Cores) (w w' : CoreWorker) : Prop where
  cores : s'.available + w'.held = s.available + w.held
  sound : w'.Sound

/-- **One access moves cores between the pool and the worker, or leaves both alone**: in a pool of
    `u32` size no subtraction wraps and no addition saturates. -/
theorem coreAccess_keeps {s s' : Cores} {w w' : CoreWorker} (hw : w.Sound)
    (hsize : s.available + w.held < 2 ^ 32) (h : coreAccess s w = some (s', w')) :
    Keeps s s' w w' := by
  obtain ⟨pc, held, answer, taken⟩ := w
  cases pc with
  | idle => exact absurd h (by simp [coreAccess])
  | claimLoad maxWant =>
      simp only [coreAccess] at h
      split at h
      · obtain ⟨rfl, rfl⟩ := Prod.mk.inj (Option.some.inj h)
        refine ⟨rfl, fun n hn => ?_⟩
        rw [← Option.some.inj hn]
        exact hw.1.symm
      · obtain ⟨rfl, rfl⟩ := Prod.mk.inj (Option.some.inj h)
        exact ⟨rfl, hw⟩
  | claimCas maxWant avail =>
      simp only [coreAccess] at h
      split at h
      · rename_i hsame
        obtain ⟨rfl, rfl⟩ := Prod.mk.inj (Option.some.inj h)
        have htake : min avail maxWant ≤ avail := Nat.min_le_left _ _
        refine ⟨?_, ?_⟩
        · dsimp only at hsize ⊢
          rw [claim_no_wrap (by omega) htake]
          omega
        · refine ⟨?_, hw.2⟩
          have hnone : taken = 0 := hw.1
          dsimp only
          rw [hnone, Nat.zero_add]
      · obtain ⟨rfl, rfl⟩ := Prod.mk.inj (Option.some.inj h)
        exact ⟨rfl, hw⟩
  | claimBump take =>
      obtain ⟨rfl, rfl⟩ := Prod.mk.inj (Option.some.inj h)
      refine ⟨rfl, fun n hn => ?_⟩
      rw [← Option.some.inj hn]
      exact hw.1.symm
  | releaseLoad count | releaseBump =>
      obtain ⟨rfl, rfl⟩ := Prod.mk.inj (Option.some.inj h)
      exact ⟨rfl, hw⟩
  | releaseCas count avail =>
      simp only [coreAccess] at h
      have hheld : count ≤ held := hw.1
      split at h
      · rename_i hsame
        obtain ⟨rfl, rfl⟩ := Prod.mk.inj (Option.some.inj h)
        refine ⟨?_, hw.2⟩
        dsimp only at hsize ⊢
        rw [release_no_saturation (by omega)]
        omega
      · obtain ⟨rfl, rfl⟩ := Prod.mk.inj (Option.some.inj h)
        exact ⟨rfl, hw⟩

/-- A call begins without touching the pool. -/
theorem coreAct_keeps {m : CoreMove} {s s' : Cores} {w w' : CoreWorker} (hw : w.Sound)
    (hsize : s.available + w.held < 2 ^ 32) (h : coreAct m s w = some (s', w')) :
    Keeps s s' w w' := by
  cases m with
  | claim maxWant =>
      simp only [coreAct] at h
      split at h
      · split at h
        · obtain ⟨rfl, rfl⟩ := Prod.mk.inj (Option.some.inj h)
          rename_i hidle _
          refine ⟨rfl, ?_⟩
          simp only [CoreWorker.Sound, hidle]
          rintro n hn
          exact (Option.some.inj hn).symm
        · obtain ⟨rfl, rfl⟩ := Prod.mk.inj (Option.some.inj h)
          exact ⟨rfl, rfl, rfl⟩
      · exact absurd h (by simp)
  | release count =>
      simp only [coreAct] at h
      split at h
      · rename_i hidle
        split at h
        · obtain ⟨rfl, rfl⟩ := Prod.mk.inj (Option.some.inj h)
          exact ⟨rfl, hw⟩
        · obtain ⟨rfl, rfl⟩ := Prod.mk.inj (Option.some.inj h)
          simp only [CoreWorker.Sound, hidle.1] at hw
          exact ⟨rfl, hidle.2, hw⟩
      · exact absurd h (by simp)
  | access => exact coreAccess_keeps hw hsize h

/-! ## Every run -/

/-- The worker is inside `claim_cores`. -/
def CorePc.Claiming : CorePc → Prop
  | .claimLoad _ | .claimCas _ _ | .claimBump _ => True
  | _ => False

variable {W : Type} [DecidableEq W]

/-- An access of a claim takes off the pool what it records as taken. -/
theorem claim_takes {s s' : CoreWorld W} {w : W} (hclaim : (s.locals w).pc.Claiming)
    (hlt : s.shared.available < 2 ^ 32)
    (h : (corePool W).next s (.thread w .access) = some s') :
    s'.shared.available + (s'.locals w).taken = s.shared.available + (s.locals w).taken := by
  obtain ⟨⟨c', w'⟩, hact, rfl⟩ := Program.next_thread _ h
  rw [World.put_shared, World.put_locals_self]
  have hact : coreAccess s.shared (s.locals w) = some (c', w') := hact
  rw [coreAccess] at hact
  cases hpc : (s.locals w).pc with
  | claimLoad maxWant =>
      rw [hpc] at hact
      dsimp only at hact
      split at hact
      · obtain ⟨rfl, rfl⟩ := Prod.mk.inj (Option.some.inj hact)
        rfl
      · obtain ⟨rfl, rfl⟩ := Prod.mk.inj (Option.some.inj hact)
        rfl
  | claimCas maxWant avail =>
      rw [hpc] at hact
      dsimp only at hact
      split at hact
      · rename_i hsame
        obtain ⟨rfl, rfl⟩ := Prod.mk.inj (Option.some.inj hact)
        have htake : min avail maxWant ≤ avail := Nat.min_le_left _ _
        dsimp only
        rw [claim_no_wrap (by omega) htake]
        omega
      · obtain ⟨rfl, rfl⟩ := Prod.mk.inj (Option.some.inj hact)
        rfl
  | claimBump take =>
      rw [hpc] at hact
      obtain ⟨rfl, rfl⟩ := Prod.mk.inj (Option.some.inj hact)
      rfl
  | idle | releaseLoad count | releaseCas count avail | releaseBump =>
      rw [hpc] at hclaim
      exact hclaim.elim

/-- What the pool promises in a reachable state. -/
structure Conserves [Fintype W] (totalCores : ℕ) (s : CoreWorld W) : Prop where
  /-- what is available and what the workers hold is the initial total -/
  total : s.shared.available + ∑ w, (s.locals w).held = totalCores
  /-- a claim answers with what it has taken; a failed one has taken nothing -/
  answered : ∀ w n, (s.locals w).answer = some n → (s.locals w).taken = n
  /-- an access inside a claim changes the pool by what it takes -/
  taken : ∀ w s', (s.locals w).pc.Claiming →
    (corePool W).next s (.thread w .access) = some s' →
      s'.shared.available + (s'.locals w).taken = s.shared.available + (s.locals w).taken

/-- **The pool conserves cores**: in every state that any interleaving of claims and releases
    reaches, available and held cores add up to the initial total. -/
theorem cores_conserved [Fintype W] (totalCores : Fin (2 ^ 32)) {s : CoreWorld W}
    (h : (corePool W).Reaches (fun _ _ => True) (createPool W totalCores) s) :
    Conserves totalCores.val s := by
  have hinv : s.shared.available + ∑ w, (s.locals w).held = totalCores.val ∧
      ∀ w, (s.locals w).Sound := by
    refine h.invariant (I := fun s => s.shared.available + ∑ w, (s.locals w).held =
      totalCores.val ∧ ∀ w, (s.locals w).Sound) ⟨?_, ?_⟩ ?_
    · simp [createPool]
    · intro w n hn
      exact absurd hn (by simp [createPool])
    · rintro u l u' ⟨htotal, hsound⟩ _ hnext
      cases l with
      | env e => exact e.elim
      | thread w m =>
          obtain ⟨⟨c', w'⟩, hact, rfl⟩ := Program.next_thread _ hnext
          have hsplit : ∑ v, (u.locals v).held =
              (u.locals w).held + ∑ v ∈ Finset.univ.erase w, (u.locals v).held :=
            (Finset.add_sum_erase _ _ (Finset.mem_univ w)).symm
          have hlt := totalCores.isLt
          have hkeeps := coreAct_keeps (hsound w) (by omega) hact
          refine ⟨?_, fun b => ?_⟩
          · have hothers : ∑ v ∈ Finset.univ.erase w, ((u.put w (c', w')).locals v).held =
                ∑ v ∈ Finset.univ.erase w, (u.locals v).held :=
              Finset.sum_congr rfl fun v hv => by
                rw [World.put_locals_of_ne _ _ (Finset.ne_of_mem_erase hv)]
            have hcores := hkeeps.cores
            rw [← Finset.add_sum_erase _ _ (Finset.mem_univ w), hothers, World.put_locals_self,
              World.put_shared]
            dsimp only
            omega
          · by_cases hb : b = w
            · rw [hb, World.put_locals_self]
              exact hkeeps.sound
            · rw [World.put_locals_of_ne _ _ hb]
              exact hsound b
  have hlt := totalCores.isLt
  refine ⟨hinv.1, fun w n hn => ?_, fun w s' hclaim hnext => claim_takes hclaim (by omega) hnext⟩
  have hsound := hinv.2 w
  rw [CoreWorker.Sound] at hsound
  cases hpc : (s.locals w).pc with
  | idle => rw [hpc] at hsound; exact (hsound n hn).symm
  | claimLoad _ | claimCas _ _ | claimBump _ =>
      rw [hpc] at hsound
      rw [hsound.2] at hn
      exact absurd hn (by simp)
  | releaseLoad _ | releaseCas _ _ => rw [hpc] at hsound; exact (hsound.2 n hn).symm
  | releaseBump => rw [hpc] at hsound; exact (hsound n hn).symm

/-- Two workers race for three cores: the second swap fails and is repeated. -/
def racingClaims : List (Label (Fin 2) Empty CoreMove) :=
  [.thread 0 (.claim 2), .thread 1 (.claim 2), .thread 0 .access, .thread 1 .access,
    .thread 0 .access, .thread 1 .access, .thread 1 .access, .thread 1 .access,
    .thread 0 .access, .thread 1 .access]

theorem cores_conserved_racingClaims :
    Conserves 3 ((corePool (Fin 2)).outcome (createPool (Fin 2) 3) racingClaims) :=
  cores_conserved 3 (Program.Reaches.of_outcome (by decide +kernel) (by decide +kernel))

end CodeScope.Scheduler
