import CodeScope.Scheduler.StaleRecovery

/-! # Ownership stamps

`claimer_id` and `started_at_ms` are stored apart from the status swaps they belong to: a claim
stores its owner after the swap, a recovery clears both stamps after the slot is claimable again.
`OwnershipClean` asks of a claim's swap that everybody else has finished storing to the slot. Along
such runs the stamps of a claimed chunk are its owner's, and `release_worker_chunks(v)` finds the
chunks dead worker `v` was handed and no others. -/

namespace CodeScope.Scheduler

open Interleaving

variable {W : Type}

/-- A thread with owner or stamp stores to slot `i` still ahead of it. -/
def Pc.storesAhead (i : Nat) : Pc W → Bool
  | .claimOwner _ j | .resetOwner _ _ j | .resetStamp _ _ j => i = j
  | .releaseOwner _ j | .releaseStarted _ j | .releaseFinished _ j | .releaseStatus _ j => i = j
  | _ => false

/-- The claim has been returned to its worker and nobody has completed or begun to release the
    chunk since. -/
def Claim.Held (cl : Claim W) : Prop :=
  cl.returned = true ∧ cl.completed = false ∧ cl.releasing = false

variable [DecidableEq W]

/-- A claim's swap by `w` finds a slot whose stamps are settled: no owner, a start time, and no
    other live thread about to store to it. -/
def SettledAccess (w : W) (q : Shared W) (locals : W → Pc W) : Pc W → Prop
  | .claimCas _ i => (q.chunks i).status = .pending →
      (q.chunks i).claimerId = none ∧ (q.chunks i).startedAtMs ≠ 0 ∧
        ∀ b, b ≠ w → q.alive b = true → (locals b).storesAhead i = false
  | _ => True

instance [Fintype W] (w : W) (q : Shared W) (locals : W → Pc W) :
    (pc : Pc W) → Decidable (SettledAccess w q locals pc)
  | .claimCas _ i =>
    inferInstanceAs (Decidable ((q.chunks i).status = .pending →
      (q.chunks i).claimerId = none ∧ (q.chunks i).startedAtMs ≠ 0 ∧
        ∀ b, b ≠ w → q.alive b = true → (locals b).storesAhead i = false))
  | .idle | .claimLoad _ _ | .claimStamp _ _ | .claimOwner _ _ | .working _ _ => isTrue trivial
  | .markFinished _ _ _ _ | .markStatus _ _ _ => isTrue trivial
  | .resetLoad _ _ _ | .resetCheck _ _ _ | .resetNow _ _ _ _ => isTrue trivial
  | .resetCas _ _ _ _ | .resetOwner _ _ _ | .resetStamp _ _ _ => isTrue trivial
  | .releaseLoad _ _ | .releaseOwner _ _ | .releaseStarted _ _ => isTrue trivial
  | .releaseFinished _ _ | .releaseStatus _ _ => isTrue trivial

/-- A step of a run in which claims find settled slots and releases are for dead workers. -/
def OwnershipClean (s : QueueWorld W) : QueueLabel W → Prop
  | .thread _ (.enter (.releaseWorkerChunks v)) => s.shared.alive v = false
  | .thread w .access => SettledAccess w s.shared s.locals (s.locals w)
  | _ => True

instance [Fintype W] (s : QueueWorld W) : (l : QueueLabel W) → Decidable (OwnershipClean s l)
  | .thread _ (.enter (.releaseWorkerChunks v)) =>
    inferInstanceAs (Decidable (s.shared.alive v = false))
  | .thread w .access =>
    inferInstanceAs (Decidable (SettledAccess w s.shared s.locals (s.locals w)))
  | .thread _ (.enter .claimNext) | .thread _ (.enter (.mark _)) => isTrue trivial
  | .thread _ (.enter (.resetStale _ _)) => isTrue trivial
  | .thread _ (.enter (.resetAllStale _)) | .env _ => isTrue trivial

/-! ## The stamps of a slot -/

/-- The stamps of a slot agree with the claim in force on it. -/
structure ChunkSlot.Owned (c : ChunkSlot W) : Prop where
  pending : c.status = .pending → c.claim = none
  claimer : ∀ cl, c.claim = some cl → c.claimerId = none ∨ c.claimerId = some cl.worker
  stamped : ∀ cl, c.claim = some cl → cl.completed = false → cl.releasing = false →
    c.status = .claimed ∧ c.startedAtMs ≠ 0
  returned : ∀ cl, c.claim = some cl → cl.returned = true → cl.releasing = false →
    c.claimerId = some cl.worker

omit [DecidableEq W] in
theorem ChunkSlot.Owned.of_unclaimed {c : ChunkSlot W} (h : c.claim = none) : c.Owned where
  pending _ := h
  claimer cl hcl := by simp [h] at hcl
  stamped cl hcl := by simp [h] at hcl
  returned cl hcl := by simp [h] at hcl

/-- No chunk below `j` is held under a claim of `v`. -/
def releasedBelow (q : Shared W) (v : W) (j : Nat) : Prop :=
  ∀ i < j, ∀ cl, (q.chunks i).claim = some cl → cl.returned = true → cl.releasing = false →
    cl.worker ≠ v

/-- What a live thread knows about the slot it is about to store to. -/
def ownershipKnown (w : W) (pc : Pc W) (q : Shared W) : Prop :=
  q.alive w = true →
  match pc with
  | .claimLoad started _ | .claimStamp started _ | .claimCas started _ => started ≠ 0
  | .claimOwner _ i => ∀ cl, (q.chunks i).claim = some cl → cl.worker = w
  | .resetOwner _ _ i | .resetStamp _ _ i => (q.chunks i).claim = none
  | .releaseLoad v i => q.alive v = false ∧ releasedBelow q v i
  | .releaseOwner v i => q.alive v = false ∧ releasedBelow q v i ∧
      ∀ cl, (q.chunks i).claim = some cl → cl.worker = v
  | .releaseStarted v i | .releaseFinished v i | .releaseStatus v i =>
      q.alive v = false ∧ releasedBelow q v i ∧
        ∀ cl, (q.chunks i).claim = some cl → cl.worker = v ∧ cl.releasing = true
  | _ => True

variable {count : Nat} {c' : ChunkSlot W} {pc pc' : Pc W} {q : Shared W}

/-- What one access does to the claim on its slot: a claim found there afterwards was there before,
    with the same worker and at most further along, or was just installed on a PENDING slot. -/
theorem access_claim {now : Nat} {w : W} {c : ChunkSlot W}
    (h : access count w now c pc = some (c', pc')) {cl' : Claim W} (hcl' : c'.claim = some cl') :
    (∃ cl, c.claim = some cl ∧ cl'.worker = cl.worker ∧
      (cl.releasing = true → cl'.releasing = true) ∧
      (cl'.returned = true → cl.returned = true ∨ cl.worker = w)) ∨
    (∃ started i, pc = .claimCas started i ∧ c.status = .pending ∧
      cl' = ⟨w, now, false, false, false⟩) := by
  cases access_step h with
  | claimCas started i hpending => exact Or.inr ⟨started, i, rfl, hpending, by simpa using hcl'.symm⟩
  | claimOwner _ _ =>
      simp only [Option.map_eq_some_iff] at hcl'
      obtain ⟨cl, hcl, rfl⟩ := hcl'
      refine Or.inl ⟨cl, hcl, by simp, ?_, ?_⟩
      · unfold Claim.return
        split <;> exact id
      · unfold Claim.return
        split
        · next hw => exact fun _ => Or.inr hw
        · exact Or.inl
  | markStatus _ _ _ | releaseOwner _ _ =>
      simp only [Option.map_eq_some_iff] at hcl'
      obtain ⟨cl, hcl, rfl⟩ := hcl'
      exact Or.inl ⟨cl, hcl, rfl, by simp, Or.inl⟩
  | resetCas _ _ _ _ _ | releaseStatus _ _ => simp at hcl'
  | _ => exact Or.inl ⟨cl', hcl', rfl, id, Or.inl⟩

/-! ## The proof outline -/

/-- A clean access of a thread keeps the stamps of its slot in agreement with the claim. -/
theorem access_owned {w : W} {locals : W → Pc W} (halive : q.alive w = true)
    (hclean : SettledAccess w q locals pc) (ho : (q.chunks pc.slot).Owned)
    (hk : ownershipKnown w pc q) (h : access count w q.nowMs (q.chunks pc.slot) pc = some (c', pc')) :
    c'.Owned := by
  have hk := hk halive
  cases access_step h with
  | reads _ => exact ho
  | claimStamp _ _ =>
      exact ⟨ho.pending, ho.claimer,
        fun cl hcl hc hr => ⟨(ho.stamped cl hcl hc hr).1, hk⟩, ho.returned⟩
  | claimCas _ _ hpending =>
      obtain ⟨hclaimer, hstarted, _⟩ := hclean hpending
      refine ⟨by simp, fun _ _ => Or.inl hclaimer, fun _ _ _ _ => ⟨rfl, hstarted⟩, ?_⟩
      intro cl hcl hreturned
      obtain rfl := by simpa using hcl
      simp at hreturned
  | claimOwner _ _ =>
      refine ⟨fun hp => by simpa using ho.pending hp, ?_, ?_, ?_⟩
      · intro cl' hcl'
        obtain ⟨cl, hcl, rfl⟩ := by simpa using hcl'
        right
        simp [hk cl hcl]
      · intro cl' hcl' hc hr
        obtain ⟨cl, hcl, rfl⟩ := by simpa using hcl'
        have hsame : (Claim.return w cl).completed = cl.completed ∧
            (Claim.return w cl).releasing = cl.releasing := by
          unfold Claim.return
          split <;> exact ⟨rfl, rfl⟩
        exact ho.stamped cl hcl (hsame.1.symm.trans hc) (hsame.2.symm.trans hr)
      · intro cl' hcl' _ _
        obtain ⟨cl, hcl, rfl⟩ := by simpa using hcl'
        simp [hk cl hcl]
  | markFinished _ _ _ _ | releaseFinished _ _ =>
      exact ⟨ho.pending, ho.claimer, ho.stamped, ho.returned⟩
  | markStatus _ _ ok =>
      refine ⟨fun hp => by cases ok <;> simp [markedStatus] at hp, ?_, ?_, ?_⟩
      · intro cl' hcl'
        obtain ⟨cl, hcl, rfl⟩ := by simpa using hcl'
        exact ho.claimer cl hcl
      · intro cl' hcl' hc _
        obtain ⟨cl, hcl, rfl⟩ := by simpa using hcl'
        simp at hc
      · intro cl' hcl' hret hr
        obtain ⟨cl, hcl, rfl⟩ := by simpa using hcl'
        exact ho.returned cl hcl hret hr
  | resetCas _ _ _ _ _ | releaseStatus _ _ => exact .of_unclaimed rfl
  | resetOwner _ _ _ | resetStamp _ _ _ => exact .of_unclaimed hk
  | releaseOwner _ _ =>
      refine ⟨fun hp => by simpa using ho.pending hp, fun _ _ => Or.inl rfl, ?_, ?_⟩ <;>
        intro cl' hcl' _ hr <;> obtain ⟨cl, hcl, rfl⟩ := by simpa using hcl'
      · simp at hr
      · simp at hr
  | releaseStarted _ _ =>
      refine ⟨ho.pending, ho.claimer, ?_, ho.returned⟩
      intro cl hcl _ hr
      simp [(hk.2.2 cl hcl).2] at hr

/-- What a property of claims says of one slot it goes on saying after another thread's access,
    when claims only advance under it and no fresh claim is installed there. -/
theorem setChunk_claim {w : W} {P : Claim W → Prop} {i : Nat}
    (h : access count w q.nowMs (q.chunks pc.slot) pc = some (c', pc'))
    (hadvance : ∀ cl cl' : Claim W, P cl → cl'.worker = cl.worker → (cl.releasing = true → cl'.releasing = true) → (cl'.returned = true → cl.returned = true ∨ cl.worker = w) → P cl')
    (hfresh : ∀ started, pc = .claimCas started i → (q.chunks i).status = .pending → P ⟨w, q.nowMs, false, false, false⟩)
    (hP : ∀ cl, (q.chunks i).claim = some cl → P cl) :
    ∀ cl, ((q.setChunk pc.slot c').chunks i).claim = some cl → P cl := by
  intro cl' hcl'
  by_cases hi : i = pc.slot
  · subst hi
    rw [Shared.setChunk_self] at hcl'
    rcases access_claim h hcl' with ⟨cl, hcl, hworker, hrel, hret⟩ |
      ⟨started, j, rfl, hpending, rfl⟩
    · exact hadvance cl cl' (hP cl hcl) hworker hrel hret
    · exact hfresh started rfl hpending
  · rw [Shared.setChunk_of_ne _ _ hi] at hcl'
    exact hP cl' hcl'

/-- Chunks already released from dead worker `v` stay so under every access of a live thread. -/
theorem releasedBelow_setChunk {w v : W} {j : Nat} (halive : q.alive w = true)
    (hdead : q.alive v = false) (h : access count w q.nowMs (q.chunks pc.slot) pc = some (c', pc'))
    (hbelow : releasedBelow q v j) : releasedBelow (q.setChunk pc.slot c') v j := by
  have hne : w ≠ v := by
    rintro rfl
    simp [halive] at hdead
  intro i hi
  refine setChunk_claim (P := fun cl => cl.returned = true → cl.releasing = false →
    cl.worker ≠ v) h ?_ ?_ (hbelow i hi)
  · intro cl cl' hcl hworker hrel hret hreturned hreleasing
    rw [hworker]
    rcases hret hreturned with hr | hw
    · refine hcl hr ?_
      by_contra hreleased
      simp [hrel (by simpa using hreleased)] at hreleasing
    · exact hw ▸ hne
  · intro _ _ _ hreturned
    simp at hreturned

/-- A clean access by one thread leaves what another live thread knows intact. -/
theorem ownershipKnown_other {w b : W} {s : QueueWorld W} (hb : b ≠ w)
    (halive : s.shared.alive w = true) (hclean : OwnershipClean s (.thread w .access))
    (hk : ownershipKnown b (s.locals b) s.shared)
    (h : access count w s.shared.nowMs (s.shared.chunks (s.locals w).slot) (s.locals w) = some (c', pc')) :
    ownershipKnown b (s.locals b) (s.shared.setChunk (s.locals w).slot c') := by
  intro hbalive
  have hk := hk hbalive
  -- no fresh claim is installed on the slot another live thread is about to store to
  have hquiet : ∀ i, (s.locals b).storesAhead i = true → ∀ started,
      s.locals w = .claimCas started i → (s.shared.chunks i).status ≠ .pending := by
    intro i hahead started hpc hpending
    have haccess : SettledAccess w s.shared s.locals (s.locals w) := hclean
    rw [hpc] at haccess
    have hnone := (haccess hpending).2.2 b hb hbalive
    simp [hahead] at hnone
  cases hpc : s.locals b with
  | claimOwner _ i =>
      simp only [hpc] at hk
      refine setChunk_claim (P := fun cl => cl.worker = b) h ?_ ?_ hk
      · intro cl cl' hcl hworker _ _
        exact hworker.trans hcl
      · intro started hcas hpending
        exact absurd hpending (hquiet i (by simp [hpc, Pc.storesAhead]) started hcas)
  | resetOwner scan timeout i | resetStamp scan timeout i =>
      simp only [hpc] at hk
      have hnone := setChunk_claim (P := fun _ => False) (i := i) h (fun _ _ hcl _ _ _ => hcl)
        (fun started hcas hpending =>
          hquiet i (by simp [hpc, Pc.storesAhead]) started hcas hpending)
        (fun cl hcl => by simp [hk] at hcl)
      exact Option.eq_none_iff_forall_ne_some.mpr hnone
  | releaseLoad v i =>
      simp only [hpc] at hk
      exact ⟨hk.1, releasedBelow_setChunk halive hk.1 h hk.2⟩
  | releaseOwner v i =>
      simp only [hpc] at hk
      refine ⟨hk.1, releasedBelow_setChunk halive hk.1 h hk.2.1, ?_⟩
      refine setChunk_claim (P := fun cl => cl.worker = v) h ?_ ?_ hk.2.2
      · intro cl cl' hcl hworker _ _
        exact hworker.trans hcl
      · intro started hcas hpending
        exact absurd hpending (hquiet i (by simp [hpc, Pc.storesAhead]) started hcas)
  | releaseStarted v i | releaseFinished v i | releaseStatus v i =>
      simp only [hpc] at hk
      refine ⟨hk.1, releasedBelow_setChunk halive hk.1 h hk.2.1, ?_⟩
      refine setChunk_claim (P := fun cl => cl.worker = v ∧ cl.releasing = true) h ?_ ?_ hk.2.2
      · intro cl cl' hcl hworker hrel _
        exact ⟨hworker.trans hcl.1, hrel hcl.2⟩
      · intro started hcas hpending
        exact absurd hpending (hquiet i (by simp [hpc, Pc.storesAhead]) started hcas)
  | claimLoad _ _ | claimStamp _ _ | claimCas _ _ =>
      simpa only [hpc] using hk
  | idle | working _ _ | markFinished _ _ _ _ | markStatus _ _ _ | resetLoad _ _ _
  | resetCheck _ _ _ | resetNow _ _ _ _ | resetCas _ _ _ _ => trivial

omit [DecidableEq W] in
theorem releasedBelow_succ {v : W} {j : Nat} (hbelow : releasedBelow q v j)
    (hj : ∀ cl, (q.chunks j).claim = some cl → cl.returned = true → cl.releasing = false → cl.worker ≠ v) :
    releasedBelow q v (j + 1) := by
  intro i hi
  rcases Nat.lt_succ_iff_lt_or_eq.mp hi with hlt | rfl
  · exact hbelow i hlt
  · exact hj

/-- A thread's own access, from what it knows to what it knows next. -/
theorem ownershipKnown_self {w : W} (ho : (q.chunks pc.slot).Owned) (hk : ownershipKnown w pc q)
    (h : access count w q.nowMs (q.chunks pc.slot) pc = some (c', pc')) :
    ownershipKnown w pc' (q.setChunk pc.slot c') := by
  intro hsame
  have halive : q.alive w = true := hsame
  have hk := hk halive
  cases access_step h with
  | reads hreads =>
      cases hreads with
      | claimFree _ _ | claimNext _ _ | claimLost _ _ => exact hk
      | unclaimed scan _ _ | inTime scan _ _ _ | resetLost scan _ _ _ => cases scan <;> trivial
      | owned v i hclaimer =>
          refine ⟨hk.1, releasedBelow_setChunk halive hk.1 h hk.2, fun cl hcl => ?_⟩
          simp only [Pc.slot, Shared.setChunk_self] at hcl
          rcases ho.claimer cl hcl with hnone | hworker
          · exact absurd (hnone.symm.trans hclaimer) (by simp)
          · exact Option.some.inj (hworker.symm.trans hclaimer)
      | notOwned v i hclaimer =>
          have hbelow := releasedBelow_setChunk halive hk.1 h hk.2
          refine ⟨hk.1, releasedBelow_succ hbelow fun cl hcl hret hrel hworker => ?_⟩
          simp only [Pc.slot, Shared.setChunk_self] at hcl
          exact hclaimer (hworker ▸ ho.returned cl hcl hret hrel)
      | _ => trivial
  | claimStamp _ _ => exact hk
  | claimCas _ _ _ =>
      intro cl hcl
      obtain rfl := by simpa [Pc.slot] using hcl
      rfl
  | resetCas _ _ _ _ _ => simp [Pc.slot]
  | resetOwner _ _ _ => simpa [Pc.slot] using hk
  | resetStamp scan _ _ => cases scan <;> trivial
  | releaseOwner v i =>
      refine ⟨hk.1, releasedBelow_setChunk halive hk.1 h hk.2.1, fun cl' hcl' => ?_⟩
      simp only [Pc.slot, Shared.setChunk_self, Option.map_eq_some_iff] at hcl'
      obtain ⟨cl, hcl, rfl⟩ := hcl'
      exact ⟨hk.2.2 cl hcl, rfl⟩
  | releaseStarted v i | releaseFinished v i =>
      refine ⟨hk.1, releasedBelow_setChunk halive hk.1 h hk.2.1, fun cl hcl => ?_⟩
      simp only [Pc.slot, Shared.setChunk_self] at hcl
      exact hk.2.2 cl hcl
  | releaseStatus v i =>
      have hbelow := releasedBelow_setChunk halive hk.1 h hk.2.1
      refine ⟨hk.1, releasedBelow_succ hbelow fun cl hcl => ?_⟩
      simp [Pc.slot] at hcl
  | _ => trivial

omit [DecidableEq W] in
theorem ownershipKnown_enter {w : W} {s : QueueWorld W} {op : QueueOp W} (hnow : 0 < s.shared.nowMs)
    (hclean : OwnershipClean s (.thread w (.enter op)))
    (h : enter count s.shared.nowMs op (s.locals w) = some pc') :
    ownershipKnown w pc' s.shared := by
  intro _
  unfold enter at h
  split at h
  case h_2 since i =>
      split at h <;> obtain rfl := by simpa using h
      · trivial
      · trivial
  all_goals simp only [Option.some.injEq, reduceCtorEq] at h
  all_goals subst h
  case h_1 => exact Nat.ne_of_gt hnow
  case h_5 v _ => exact ⟨hclean, fun i hi => absurd hi (Nat.not_lt_zero i)⟩
  all_goals trivial

/-- The outline of the queue for ownership. -/
theorem ownership_outline (count : Nat) :
    Outline (chunkQueue W count) OwnershipClean
      (fun q => 0 < q.nowMs ∧ ∀ i, (q.chunks i).Owned) ownershipKnown where
  env_shared := by
    rintro q e ⟨hnow, ho⟩
    cases e with
    | tick ms => exact ⟨Nat.lt_of_lt_of_le hnow (Nat.le_add_right _ _), ho⟩
    | die w => exact ⟨hnow, ho⟩
  env_local := by
    intro q e w pc _ hk
    cases e with
    | tick ms => exact hk
    | die v =>
        intro halive
        have hw : w ≠ v := by
          rintro rfl
          simp [chunkQueue] at halive
        have hk := hk (by simpa [chunkQueue, Function.update_of_ne hw] using halive)
        -- a dead worker stays dead
        have hdead : ∀ u, q.alive u = false → Function.update q.alive v false u = false := by
          intro u hu
          by_cases huv : u = v
          · rw [huv, Function.update_self]
          · rw [Function.update_of_ne huv, hu]
        cases pc with
        | releaseLoad u i
        | releaseOwner u i | releaseStarted u i | releaseFinished u i | releaseStatus u i =>
            exact ⟨hdead u hk.1, hk.2⟩
        | _ => exact hk
  step := by
    rintro s w a r hclean ⟨hnow, ho⟩ hA hact
    obtain ⟨halive, ⟨op, pc', rfl, henter, rfl⟩ | ⟨c', pc', rfl, hacc, rfl⟩⟩ :=
      chunkQueue_act hact
    · exact ⟨⟨hnow, ho⟩, ownershipKnown_enter hnow hclean henter⟩
    · refine ⟨⟨hnow, fun i => ?_⟩, ownershipKnown_self (ho _) (hA w) hacc⟩
      by_cases hi : i = (s.locals w).slot
      · subst hi
        rw [Shared.setChunk_self]
        exact access_owned halive hclean (ho _) (hA w) hacc
      · rw [Shared.setChunk_of_ne _ _ hi]
        exact ho i
  stable := by
    intro s w b a r hb hclean _ hA hact
    obtain ⟨halive, ⟨op, pc', rfl, henter, rfl⟩ | ⟨c', pc', rfl, hacc, rfl⟩⟩ :=
      chunkQueue_act hact
    · exact hA b
    · exact ownershipKnown_other hb halive hclean (hA b) hacc

/-- **Ownership stamps follow ownership.** Along every clean run, a chunk that is held has status
    CLAIMED, its holder as `claimer_id` and a non-zero `started_at_ms`; a release of `v` returns to
    PENDING only slots whose claim is `v`'s; and once the release has gone through the slots, no
    chunk is left that `v` was handed and that was not released. -/
theorem ownership_stamps_follow {count now : Nat} (hnow : 0 < now) {s : QueueWorld W}
    (hrun : (chunkQueue W count).Reaches OwnershipClean (freshQueue W now) s) :
    (∀ i cl, (s.shared.chunks i).claim = some cl → cl.Held →
      (s.shared.chunks i).status = .claimed ∧ (s.shared.chunks i).claimerId = some cl.worker ∧
        (s.shared.chunks i).startedAtMs ≠ 0) ∧
    (∀ w v i s', s.locals w = .releaseStatus v i →
      (chunkQueue W count).next s (.thread w .access) = some s' →
      (s'.shared.chunks i).status = .pending ∧
        ∀ cl, (s.shared.chunks i).claim = some cl → cl.worker = v) ∧
    (∀ w v i, s.shared.alive w = true → s.locals w = .releaseLoad v i → count ≤ i →
      ∀ j < count, ∀ cl, (s.shared.chunks j).claim = some cl → cl.returned = true →
        cl.releasing = false → cl.worker ≠ v) := by
  obtain ⟨⟨_, ho⟩, hA⟩ := (ownership_outline count).sound hrun
    ⟨hnow, fun i => .of_unclaimed rfl⟩ (fun w _ => trivial)
  refine ⟨fun i cl hcl ⟨hret, hcomp, hrel⟩ => ?_, fun w v i s' hpc hnext => ?_, ?_⟩
  · obtain ⟨hstatus, hstarted⟩ := (ho i).stamped cl hcl hcomp hrel
    exact ⟨hstatus, (ho i).returned cl hcl hret hrel, hstarted⟩
  · obtain ⟨r, hact, rfl⟩ := (chunkQueue W count).next_thread hnext
    obtain ⟨halive, ⟨op, pc', ha, _, _⟩ | ⟨c', pc', _, hacc, rfl⟩⟩ := chunkQueue_act hact
    · exact absurd ha (by simp)
    · have hk := hA w halive
      rw [hpc] at hacc hk
      obtain ⟨rfl, rfl⟩ := by simpa [access] using hacc
      refine ⟨by simp [hpc, Pc.slot], fun cl hcl => (hk.2.2 cl hcl).1⟩
  · intro w v i halive hpc hi j hj cl
    have hk := hA w halive
    rw [hpc] at hk
    exact hk.2 j (Nat.lt_of_lt_of_le hj hi) cl

/-- Worker 1 claims the only chunk, works and dies; worker 2 releases its chunks. -/
def releaseSchedule : List (QueueLabel (Fin 3)) :=
  runs 1 .claimNext 4 ++ [.env (.die 1)] ++ runs 2 (.releaseWorkerChunks 1) 4

theorem ownership_stamps_follow_releaseSchedule :
    ∃ s : QueueWorld (Fin 3), s.locals 2 = .releaseStatus 1 0 ∧
      ∃ s', (chunkQueue (Fin 3) 1).next s (.thread 2 .access) = some s' ∧
        (s'.shared.chunks 0).status = .pending ∧
        ∀ cl, (s.shared.chunks 0).claim = some cl → cl.worker = 1 := by
  have hreaches := (chunkQueue (Fin 3) 1).exists_reaches (freshQueue (Fin 3) 1) releaseSchedule
    OwnershipClean
    (fun s => s.locals 2 = .releaseStatus 1 0 ∧
      ∃ s', (chunkQueue (Fin 3) 1).next s (.thread 2 .access) = some s')
    (by decide +kernel) ⟨_, rfl, rfl, _, rfl⟩
  obtain ⟨s, hrun, hpc, s', hnext⟩ := hreaches
  exact ⟨s, hpc, s', hnext,
    (ownership_stamps_follow (by decide) hrun).2.1 2 1 0 s' hpc hnext⟩

/-- One worker's expired claim is recovered; another worker claims the chunk before the last two
    stores of the recovery. -/
def lateRecoveryStores (owner claimer recoverer : W) : List (QueueLabel W) :=
  runs owner .claimNext 4 ++ [.env (.tick 10)] ++ runs recoverer (.resetAllStale 10) 3 ++
    runs claimer .claimNext 4 ++ List.replicate 2 (.thread recoverer .access)

/-- The late stores of a recovery wipe the stamps of a fresh claim: the chunk is held by worker 2,
    yet it has no owner and no start time, so a release of worker 2 passes it over. -/
theorem ownership_stamps_lost :
    ∃ s : QueueWorld (Fin 4),
      (chunkQueue (Fin 4) 1).Reaches (fun _ _ => True) (freshQueue (Fin 4) 1) s ∧
      (∃ cl, (s.shared.chunks 0).claim = some cl ∧ cl.Held ∧ cl.worker = 2) ∧
      (s.shared.chunks 0).claimerId = none ∧ (s.shared.chunks 0).startedAtMs = 0 ∧
      ∃ t, (chunkQueue (Fin 4) 1).exec s
          ([.env (.die 2), .thread 3 .access] ++ runs 3 (.releaseWorkerChunks 2) 2) = some t ∧
        t.locals 3 = .idle ∧ (t.shared.chunks 0).status = .claimed := by
  have hreaches := (chunkQueue (Fin 4) 1).exists_reaches (freshQueue (Fin 4) 1)
    (lateRecoveryStores 1 2 3) (fun _ _ => True)
    (fun s => (s.shared.chunks 0).claim = some ⟨2, 11, true, false, false⟩ ∧
      (s.shared.chunks 0).claimerId = none ∧ (s.shared.chunks 0).startedAtMs = 0 ∧
      ∃ t ∈ (chunkQueue (Fin 4) 1).exec s
          ([.env (.die 2), .thread 3 .access] ++ runs 3 (.releaseWorkerChunks 2) 2),
        t.locals 3 = .idle ∧ (t.shared.chunks 0).status = .claimed)
    (by decide +kernel) (by decide +kernel)
  obtain ⟨s, hrun, hclaim, hclaimer, hstarted, t, hexec, hend⟩ := hreaches
  exact ⟨s, hrun, ⟨_, hclaim, ⟨rfl, rfl, rfl⟩, rfl⟩, hclaimer, hstarted, t, hexec, hend⟩

end CodeScope.Scheduler
