import CodeScope.Scheduler.ChunkQueue

/-! # Stale recovery and live claims

`reset_stale` judges a slot by the stamp it loaded and then swaps CLAIMED to PENDING. The swap says
nothing about which claim it hits: between load and swap the slot can be recovered by somebody else
and claimed afresh, and stamps can be stored late. `RecoveryClean T` names, access by access, the
placements that do this. Along runs without them (`recovery_takes_stale_claims`) a recovery only
takes claims that have outlived its timeout, so two live workers hold a chunk together only after
the earlier claim expired. -/

namespace CodeScope.Scheduler

open Interleaving

variable {W : Type}

/-! ## The claim in force -/

/-- Who has the slot, and since when. -/
def ChunkSlot.owner (c : ChunkSlot W) : Option (W × Nat) :=
  c.claim.map fun cl => (cl.worker, cl.since)

/-- A CLAIMED slot has a claim, its stamp is 0 or not older than the claim, and only slots that
    are not PENDING have a claim. -/
structure ChunkSlot.Stamped (c : ChunkSlot W) (now : Nat) : Prop where
  claimed : c.status = .claimed → ∃ w since, c.owner = some (w, since) ∧ since ≤ now ∧
    (c.startedAtMs = 0 ∨ since ≤ c.startedAtMs)
  pending : c.status = .pending → c.owner = none

variable {c c' : ChunkSlot W} {now count T : Nat} {pc pc' : Pc W} {locals : W → Pc W}

theorem ChunkSlot.Stamped.mono {now' : Nat} (h : c.Stamped now) (hle : now ≤ now') :
    c.Stamped now' := by
  refine ⟨fun hclaimed => ?_, h.pending⟩
  obtain ⟨w, since, howner, hsince, hstamp⟩ := h.claimed hclaimed
  exact ⟨w, since, howner, Nat.le_trans hsince hle, hstamp⟩

variable [DecidableEq W]

@[simp] theorem Claim.return_worker (w : W) (cl : Claim W) :
    (Claim.return w cl).worker = cl.worker := by
  unfold Claim.return
  split <;> rfl

@[simp] theorem Claim.return_since (w : W) (cl : Claim W) :
    (Claim.return w cl).since = cl.since := by
  unfold Claim.return
  split <;> rfl

/-- What one access does to the claim in force: nothing, except that a claim's swap installs it on
    a PENDING slot, and that a recovery's swap on a CLAIMED slot and the last store of a release
    remove it. -/
theorem access_owner {w : W} (h : access count w now c pc = some (c', pc')) :
    c'.owner = c.owner ∨
      (∃ started i, pc = .claimCas started i ∧ pc' = .claimOwner now i ∧ c.status = .pending ∧
        c'.owner = some (w, now)) ∨
      (∃ scan timeout i started, pc = .resetCas scan timeout i started ∧ c.status = .claimed ∧
        c'.owner = none) ∨
      (∃ v i, pc = .releaseStatus v i ∧ c'.owner = none) := by
  cases access_step h with
  | claimCas started i hpending => exact Or.inr (Or.inl ⟨started, i, rfl, rfl, hpending, rfl⟩)
  | resetCas scan timeout i started hclaimed =>
      exact Or.inr (Or.inr (Or.inl ⟨scan, timeout, i, started, rfl, hclaimed, rfl⟩))
  | releaseStatus v i => exact Or.inr (Or.inr (Or.inr ⟨v, i, rfl, rfl⟩))
  | claimOwner _ _ | markStatus _ _ _ | releaseOwner _ _ =>
      left
      cases hc : c.claim <;> simp [ChunkSlot.owner, hc]
  | _ => exact Or.inl rfl

/-! ## The placements that hit a live claim -/

/-- An access that leaves live claims alone, whatever the interleaving before it:
    - a stamp that lands on a CLAIMED slot is current, and so is the stamp a claim's swap finds;
    - no recovery that read the stamp 0 finds the slot CLAIMED;
    - a recovery's swap finds the stamp its thread judged;
    - a release returns no slot that a live worker holds. -/
def CleanAccess (q : Shared W) (locals : W → Pc W) : Pc W → Prop
  | .claimStamp started i => (q.chunks i).status = .claimed → q.nowMs ≤ started
  | .claimCas _ i => (q.chunks i).status = .pending → q.nowMs ≤ (q.chunks i).startedAtMs
  | .resetCheck _ _ i => (q.chunks i).status ≠ .claimed
  | .resetCas _ _ i started => (q.chunks i).status = .claimed → (q.chunks i).startedAtMs = started
  | .releaseStatus _ i => ∀ b, q.alive b = true → (locals b).holding.map Prod.fst ≠ some i
  | _ => True

instance [Fintype W] (q : Shared W) (locals : W → Pc W) :
    (pc : Pc W) → Decidable (CleanAccess q locals pc)
  | .claimStamp started i =>
    inferInstanceAs (Decidable ((q.chunks i).status = .claimed → q.nowMs ≤ started))
  | .claimCas _ i =>
    inferInstanceAs (Decidable ((q.chunks i).status = .pending →
      q.nowMs ≤ (q.chunks i).startedAtMs))
  | .resetCheck _ _ i => inferInstanceAs (Decidable ((q.chunks i).status ≠ .claimed))
  | .resetCas _ _ i started =>
    inferInstanceAs (Decidable ((q.chunks i).status = .claimed →
      (q.chunks i).startedAtMs = started))
  | .releaseStatus _ i =>
    inferInstanceAs (Decidable (∀ b, q.alive b = true →
      (locals b).holding.map Prod.fst ≠ some i))
  | .idle | .claimLoad _ _ | .claimOwner _ _ | .working _ _ => isTrue trivial
  | .markFinished _ _ _ _ | .markStatus _ _ _ => isTrue trivial
  | .resetLoad _ _ _ | .resetNow _ _ _ _ | .resetOwner _ _ _ => isTrue trivial
  | .resetStamp _ _ _ => isTrue trivial
  | .releaseLoad _ _ | .releaseOwner _ _ | .releaseStarted _ _ => isTrue trivial
  | .releaseFinished _ _ => isTrue trivial

/-- Recoveries are called with timeouts of at least `T`. -/
def RecoversAfter (T : Nat) : QueueLabel W → Prop
  | .thread _ (.enter (.resetStale _ timeout)) => T ≤ timeout
  | .thread _ (.enter (.resetAllStale timeout)) => T ≤ timeout
  | _ => True

/-- A step of a run in which recoveries wait for `T` and no access hits a live claim. -/
def RecoveryClean (T : Nat) (s : QueueWorld W) (l : QueueLabel W) : Prop :=
  RecoversAfter T l ∧ ∀ w, l = .thread w .access → CleanAccess s.shared s.locals (s.locals w)

instance (T : Nat) : (l : QueueLabel W) → Decidable (RecoversAfter T l)
  | .thread _ (.enter (.resetStale _ timeout)) => inferInstanceAs (Decidable (T ≤ timeout))
  | .thread _ (.enter (.resetAllStale timeout)) => inferInstanceAs (Decidable (T ≤ timeout))
  | .thread _ (.enter .claimNext) | .thread _ (.enter (.mark _)) => isTrue trivial
  | .thread _ (.enter (.releaseWorkerChunks _)) | .thread _ .access => isTrue trivial
  | .env _ => isTrue trivial

instance [Fintype W] (T : Nat) (s : QueueWorld W) (l : QueueLabel W) :
    Decidable (RecoveryClean T s l) := by
  unfold RecoveryClean
  infer_instance

/-- A clean access keeps the slot it works on stamped. -/
theorem access_stamped {w : W} {q : Shared W} (hclean : CleanAccess q locals pc)
    (hs : (q.chunks pc.slot).Stamped q.nowMs)
    (h : access count w q.nowMs (q.chunks pc.slot) pc = some (c', pc')) : c'.Stamped q.nowMs := by
  have howner := access_owner h
  cases access_step h with
  | reads _ => exact hs
  | claimStamp started i =>
      refine ⟨fun hclaimed => ?_, hs.pending⟩
      obtain ⟨v, since, hv, hsince, _⟩ := hs.claimed hclaimed
      exact ⟨v, since, hv, hsince, Or.inr (Nat.le_trans hsince (hclean hclaimed))⟩
  | claimCas started i hpending =>
      exact ⟨fun _ => ⟨w, q.nowMs, rfl, Nat.le_refl _, Or.inr (hclean hpending)⟩, by simp⟩
  | resetCas _ _ _ _ _ | releaseStatus _ _ => exact ⟨by simp, fun _ => rfl⟩
  | markStatus _ _ ok =>
      exact ⟨by cases ok <;> simp [markedStatus], by cases ok <;> simp [markedStatus]⟩
  | resetStamp _ _ _ | releaseStarted _ _ =>
      refine ⟨fun hclaimed => ?_, hs.pending⟩
      obtain ⟨v, since, hv, hsince, _⟩ := hs.claimed hclaimed
      exact ⟨v, since, hv, hsince, Or.inl rfl⟩
  | markFinished _ _ _ _ | resetOwner _ _ _ | releaseFinished _ _ => exact ⟨hs.claimed, hs.pending⟩
  | claimOwner _ _ | releaseOwner _ _ =>
      have hsame := by simpa using howner
      exact ⟨fun hclaimed => by simpa [hsame] using hs.claimed hclaimed,
        fun hpending => by simpa [hsame] using hs.pending hpending⟩

/-! ## The proof outline -/

/-- What a recovering thread knows: its timeout is at least `T`, the stamp it judged is not 0, and
    before its swap that stamp is `timeout` old. -/
def Pc.judged (T now : Nat) : Pc W → Prop
  | .resetLoad _ timeout _ | .resetCheck _ timeout _ => T ≤ timeout
  | .resetOwner _ timeout _ | .resetStamp _ timeout _ => T ≤ timeout
  | .resetNow _ timeout _ started => T ≤ timeout ∧ started ≠ 0
  | .resetCas _ timeout _ started => T ≤ timeout ∧ started ≠ 0 ∧ started + timeout ≤ now
  | _ => True

/-- A live holder still has the claim in force, or has had the chunk for `T`. -/
def heldOrExpired (T : Nat) (w : W) (pc : Pc W) (q : Shared W) : Prop :=
  q.alive w = true → ∀ i since, pc.holding = some (i, since) →
    (q.chunks i).owner = some (w, since) ∨ since + T ≤ q.nowMs

omit [DecidableEq W] in
theorem Pc.judged_mono {now' : Nat} (h : pc.judged T now) (hle : now ≤ now') :
    pc.judged T now' := by
  cases pc with
  | resetCas _ _ _ _ => exact ⟨h.1, h.2.1, Nat.le_trans h.2.2 hle⟩
  | _ => exact h

omit [DecidableEq W] in
theorem judged_resetNext {scan : Bool} {timeout i : Nat} (h : T ≤ timeout) :
    (resetNext scan timeout i : Pc W).judged T now := by
  cases scan with
  | true => exact h
  | false => trivial

/-- A recovering thread's knowledge follows it through its accesses. -/
theorem access_judged (hT : 0 < T) {w : W}
    (hclean : ∀ scan timeout i, pc = .resetCheck scan timeout i → c.status ≠ .claimed)
    (hj : pc.judged T now) (h : access count w now c pc = some (c', pc')) : pc'.judged T now := by
  cases access_step h with
  | reads hreads =>
      cases hreads with
      | unstamped _ _ _ => exact hj
      | stamped _ _ _ hne => exact ⟨hj, hne⟩
      | claimed scan timeout i hclaimed => exact absurd hclaimed (hclean scan timeout i rfl)
      | unclaimed _ _ _ => exact judged_resetNext hj
      | inTime _ _ _ _ | resetLost _ _ _ _ => exact judged_resetNext hj.1
      | expired _ timeout _ _ _ =>
          have htimeout : T ≤ timeout := hj.1
          exact ⟨htimeout, hj.2, by omega⟩
      | _ => trivial
  | resetCas _ _ _ _ _ => exact hj.1
  | resetOwner _ _ _ => exact hj
  | resetStamp _ _ _ => exact judged_resetNext hj
  | _ => trivial

/-- Holding starts at a successful claim swap, with the claim it installs, and goes on unchanged
    until the chunk is marked. -/
theorem access_holding {w : W} (h : access count w now c pc = some (c', pc')) {i since : Nat}
    (hhold : pc'.holding = some (i, since)) :
    pc.slot = i ∧ (pc.holding = some (i, since) ∨ c'.owner = some (w, since)) := by
  have hnext : ∀ scan timeout j, (resetNext scan timeout j : Pc W).holding = none := by
    intro scan timeout j
    cases scan <;> rfl
  cases access_step h with
  | reads hreads =>
      cases hreads with
      | unclaimed _ _ _ | inTime _ _ _ _ | resetLost _ _ _ _ => simp [hnext] at hhold
      | _ => simp [Pc.holding] at hhold
  | claimCas _ _ _ =>
      obtain ⟨rfl, rfl⟩ := by simpa [Pc.holding] using hhold
      exact ⟨rfl, Or.inr rfl⟩
  | claimOwner _ _ | markFinished _ _ _ _ =>
      obtain ⟨rfl, rfl⟩ := by simpa [Pc.holding] using hhold
      exact ⟨rfl, Or.inl rfl⟩
  | resetStamp _ _ _ => simp [hnext] at hhold
  | _ => simp [Pc.holding] at hhold

omit [DecidableEq W] in
theorem enter_holding {op : QueueOp W} (h : enter count now op pc = some pc') {x : Nat × Nat}
    (hhold : pc'.holding = some x) : pc.holding = some x := by
  unfold enter at h
  split at h
  case h_2 since i =>
      split at h <;> obtain rfl := by simpa using h
      · simp [Pc.holding] at hhold
      · exact hhold
  all_goals simp only [Option.some.injEq, reduceCtorEq] at h
  all_goals subst h; simp [Pc.holding] at hhold

omit [DecidableEq W] in
theorem enter_judged {op : QueueOp W} {w : W} (hafter : RecoversAfter T (.thread w (.enter op)))
    (h : enter count now op pc = some pc') : pc'.judged T now := by
  unfold enter at h
  split at h
  case h_2 since i =>
      split at h <;> obtain rfl := by simpa using h
      · trivial
      · trivial
  all_goals simp only [Option.some.injEq, reduceCtorEq] at h
  all_goals subst h; exact hafter

omit [DecidableEq W] in
/-- **A recovery's swap takes an expired claim**, when the slot is stamped and the access clean. -/
theorem resetCas_takes_expired {q : Shared W} {scan : Bool} {timeout i started : Nat}
    (hclean : CleanAccess q locals (.resetCas scan timeout i started))
    (hs : (q.chunks i).Stamped q.nowMs)
    (hj : (Pc.resetCas scan timeout i started : Pc W).judged T q.nowMs)
    (hclaimed : (q.chunks i).status = .claimed) :
    ∃ w since, (q.chunks i).owner = some (w, since) ∧ since + timeout ≤ q.nowMs := by
  obtain ⟨w, since, howner, _, hstamp⟩ := hs.claimed hclaimed
  have hsame : (q.chunks i).startedAtMs = started := hclean hclaimed
  obtain ⟨_, hne, hold⟩ := hj
  refine ⟨w, since, howner, ?_⟩
  rcases hstamp with hzero | hle
  · exact absurd (hsame.symm.trans hzero) hne
  · omega

/-- A clean access by one thread leaves every other live holder with its claim, unless that claim
    has expired. -/
theorem access_heldOrExpired_other {w b : W} {q : Shared W}
    (hclean : CleanAccess q locals (locals w)) (hs : ∀ i, (q.chunks i).Stamped q.nowMs)
    (hj : (locals w).judged T q.nowMs) (hheld : heldOrExpired T b (locals b) q)
    (h : access count w q.nowMs (q.chunks (locals w).slot) (locals w) = some (c', pc')) :
    heldOrExpired T b (locals b) (q.setChunk (locals w).slot c') := by
  intro halive i since hhold
  rcases hheld halive i since hhold with howner | hexpired
  · by_cases hslot : i = (locals w).slot
    · subst hslot
      simp only [Shared.setChunk_self, Shared.setChunk_nowMs]
      rcases access_owner h with hsame | ⟨started, j, _, _, hpending, _⟩ |
        ⟨scan, timeout, j, started, hpc, hclaimed, _⟩ | ⟨v, j, hpc, _⟩
      · exact Or.inl (hsame.trans howner)
      · simp [(hs _).pending hpending] at howner
      · rw [hpc] at hclean hclaimed howner hj
        obtain ⟨u, t, hu, hexpired⟩ := resetCas_takes_expired hclean (hs _) hj hclaimed
        have hinforce : (q.chunks j).owner = some (b, since) := howner
        obtain ⟨rfl, rfl⟩ := by simpa [hu] using hinforce
        exact Or.inr (Nat.le_trans (Nat.add_le_add_left hj.1 t) hexpired)
      · rw [hpc] at hclean hhold
        exact absurd (by simp [hhold, Pc.slot]) (hclean b halive)
    · left
      rwa [Shared.setChunk_of_ne _ _ hslot]
  · exact Or.inr hexpired

/-- A thread's own clean access keeps what it knows about the chunk it holds. -/
theorem access_heldOrExpired_self {w : W} {q : Shared W} (hheld : heldOrExpired T w pc q)
    (h : access count w q.nowMs (q.chunks pc.slot) pc = some (c', pc')) :
    heldOrExpired T w pc' (q.setChunk pc.slot c') := by
  intro halive i since hhold
  obtain ⟨rfl, hbefore | hinstalled⟩ := access_holding h hhold
  · rcases hheld halive _ since hbefore with howner | hexpired
    · left
      rw [Shared.setChunk_self]
      rcases access_owner h with hsame | ⟨_, _, rfl, _⟩ | ⟨_, _, _, _, rfl, _⟩ | ⟨_, _, rfl, _⟩
      · exact hsame.trans howner
      all_goals simp [Pc.holding] at hbefore
    · exact Or.inr hexpired
  · left
    rw [Shared.setChunk_self]
    exact hinstalled

/-- The outline of the queue for clean runs. -/
theorem recovery_outline (count : Nat) (hT : 0 < T) :
    Outline (chunkQueue W count) (RecoveryClean T) (fun q => ∀ i, (q.chunks i).Stamped q.nowMs)
      (fun w pc q => pc.judged T q.nowMs ∧ heldOrExpired T w pc q) where
  env_shared := by
    intro q e hs i
    cases e with
    | tick ms => exact (hs i).mono (Nat.le_add_right _ _)
    | die w => exact hs i
  env_local := by
    intro q e w pc _ ⟨hj, hheld⟩
    cases e with
    | tick ms =>
        refine ⟨Pc.judged_mono hj (Nat.le_add_right _ _), fun halive i since hhold => ?_⟩
        rcases hheld halive i since hhold with howner | hexpired
        · exact Or.inl howner
        · exact Or.inr (Nat.le_trans hexpired (Nat.le_add_right _ _))
    | die v =>
        refine ⟨hj, fun halive => hheld ?_⟩
        by_cases hv : w = v
        · simp [chunkQueue, hv] at halive
        · simpa [chunkQueue, Function.update_of_ne hv] using halive
  step := by
    intro s w a r hclean hs hA hact
    obtain ⟨_, ⟨op, pc', rfl, henter, rfl⟩ | ⟨c', pc', rfl, hacc, rfl⟩⟩ := chunkQueue_act hact
    · refine ⟨hs, enter_judged hclean.1 henter, fun halive i since hhold => ?_⟩
      exact (hA w).2 halive i since (enter_holding henter hhold)
    · refine ⟨fun i => ?_, ?_, access_heldOrExpired_self (hA w).2 hacc⟩
      · by_cases hi : i = (s.locals w).slot
        · subst hi
          simpa using access_stamped (hclean.2 w rfl) (hs _) hacc
        · simpa [Shared.setChunk_of_ne _ _ hi] using hs i
      · refine access_judged hT (fun scan timeout i hpc => ?_) (hA w).1 hacc
        have hcheck := hclean.2 w rfl
        rw [hpc] at hcheck ⊢
        exact hcheck
  stable := by
    intro s w b a r hb hclean hs hA hact
    obtain ⟨_, ⟨op, pc', rfl, henter, rfl⟩ | ⟨c', pc', rfl, hacc, rfl⟩⟩ := chunkQueue_act hact
    · exact hA b
    · exact ⟨(hA b).1, access_heldOrExpired_other (hclean.2 w rfl) hs (hA w).1 (hA b).2 hacc⟩

/-- **Recovery spares live, in-time workers.** Along every clean run, a recovery step that moves a
    slot from CLAIMED to PENDING takes a claim at least as old as its timeout, and two live workers
    hold one chunk only if the first of them has had it for `T`. -/
theorem recovery_takes_stale_claims {count T now : Nat} (hT : 0 < T)
    {s : QueueWorld W}
    (hrun : (chunkQueue W count).Reaches (RecoveryClean T) (freshQueue W now) s) :
    (∀ w s' scan timeout i started, s.locals w = .resetCas scan timeout i started →
      RecoveryClean T s (.thread w .access) →
      (chunkQueue W count).next s (.thread w .access) = some s' →
      (s.shared.chunks i).status = .claimed → (s'.shared.chunks i).status = .pending →
      ∃ v since, (s.shared.chunks i).owner = some (v, since) ∧
        since + timeout ≤ s.shared.nowMs) ∧
    (∀ v w i t u, v ≠ w → s.shared.alive v = true → s.shared.alive w = true →
      (s.locals v).holding = some (i, t) → (s.locals w).holding = some (i, u) → t ≤ u →
      t + T ≤ s.shared.nowMs) := by
  obtain ⟨hs, hA⟩ := (recovery_outline count hT).sound hrun
    (fun i => ⟨by simp [freshQueue, ChunkSlot.init], fun _ => rfl⟩)
    (fun w => ⟨trivial, fun _ i since hhold => by simp [freshQueue, Pc.holding] at hhold⟩)
  refine ⟨fun w s' scan timeout i started hpc hclean _ hclaimed _ => ?_, ?_⟩
  · have haccess := hclean.2 w rfl
    have hjudged := (hA w).1
    rw [hpc] at haccess hjudged
    exact resetCas_takes_expired haccess (hs i) hjudged hclaimed
  · intro v w i t u hne hv hw hholdv hholdw hle
    rcases (hA v).2 hv i t hholdv with hownerv | hexpired
    · rcases (hA w).2 hw i u hholdw with hownerw | hexpired
      · have hsame := hownerv.symm.trans hownerw
        simp only [Option.some.injEq, Prod.mk.injEq] at hsame
        exact absurd hsame.1 hne
      · omega
    · exact hexpired

/-- Thread `w` enters an operation and performs `n` accesses. -/
def runs (w : W) (op : QueueOp W) (n : Nat) : List (QueueLabel W) :=
  .thread w (.enter op) :: List.replicate n (.thread w .access)

/-- Worker 1 claims the only chunk and outlives the timeout; worker 2 recovers it. -/
def recoverySchedule : List (QueueLabel (Fin 4)) :=
  runs 1 .claimNext 4 ++ [.env (.tick 10)] ++ runs 2 (.resetAllStale 10) 2

theorem recovery_takes_stale_claims_recoverySchedule :
    ∃ s : QueueWorld (Fin 4), s.locals 2 = .resetCas true 10 0 1 ∧ s.shared.nowMs = 11 ∧
      ∃ v since, (s.shared.chunks 0).owner = some (v, since) ∧ since + 10 ≤ s.shared.nowMs := by
  have hreaches := (chunkQueue (Fin 4) 1).exists_reaches (freshQueue (Fin 4) 1) recoverySchedule
    (RecoveryClean 10)
    (fun s => s.locals 2 = .resetCas true 10 0 1 ∧ s.shared.nowMs = 11 ∧
      (s.shared.chunks 0).status = .claimed ∧ RecoveryClean 10 s (.thread 2 .access) ∧
      ∃ s' ∈ (chunkQueue (Fin 4) 1).next s (.thread 2 .access),
        (s'.shared.chunks 0).status = .pending)
    (by decide) (by decide)
  obtain ⟨s, hrun, hpc, hnow, hclaimed, hclean, s', hnext, hpending⟩ := hreaches
  exact ⟨s, hpc, hnow, (recovery_takes_stale_claims (by decide) hrun).1 2 s' true 10 0 1 hpc
    hclean hnext hclaimed hpending⟩

/-- Worker 2 judges worker 1's expired claim and is suspended before its swap; worker 3 recovers
    the chunk meanwhile and claims it afresh. -/
def suspendedRecovery : List (QueueLabel (Fin 4)) :=
  runs 1 .claimNext 4 ++ [.env (.tick 10)] ++ runs 2 .claimNext 2 ++ runs 2 (.resetAllStale 10) 2 ++
    runs 3 .claimNext 2 ++ runs 3 (.resetAllStale 10) 6 ++ runs 3 .claimNext 4

/-- The rest of worker 2's recovery, and its next claim. -/
def afterTheft : List (QueueLabel (Fin 4)) :=
  List.replicate 3 (.thread 2 .access) ++ runs 2 .claimNext 4

/-- The swap of a suspended recovery takes a claim of the same millisecond from a live worker, and
    both workers go on to hold the chunk. -/
theorem recovery_takes_fresh_claim :
    ∃ s s' t : QueueWorld (Fin 4),
      (chunkQueue (Fin 4) 1).Reaches (fun _ l => RecoversAfter 10 l) (freshQueue (Fin 4) 1) s ∧
      s.locals 2 = .resetCas true 10 0 1 ∧
      (chunkQueue (Fin 4) 1).next s (.thread 2 .access) = some s' ∧
      (s.shared.chunks 0).status = .claimed ∧ (s'.shared.chunks 0).status = .pending ∧
      (s.shared.chunks 0).owner = some (3, 11) ∧ s.shared.nowMs = 11 ∧
      (chunkQueue (Fin 4) 1).Reaches (fun _ l => RecoversAfter 10 l) s' t ∧
      t.shared.alive 2 = true ∧ t.shared.alive 3 = true ∧
      (t.locals 2).holding = some (0, 11) ∧ (t.locals 3).holding = some (0, 11) ∧
      t.shared.nowMs = 11 := by
  have hreaches := (chunkQueue (Fin 4) 1).exists_reaches (freshQueue (Fin 4) 1) suspendedRecovery
    (fun _ l => RecoversAfter 10 l)
    (fun s => s.locals 2 = .resetCas true 10 0 1 ∧ (s.shared.chunks 0).status = .claimed ∧
      (s.shared.chunks 0).owner = some (3, 11) ∧ s.shared.nowMs = 11 ∧
      ∃ s' ∈ (chunkQueue (Fin 4) 1).next s (.thread 2 .access),
        (s'.shared.chunks 0).status = .pending ∧
        (chunkQueue (Fin 4) 1).Meets (fun _ l => RecoversAfter 10 l) s' afterTheft ∧
        ∃ t ∈ (chunkQueue (Fin 4) 1).exec s' afterTheft,
          t.shared.alive 2 = true ∧ t.shared.alive 3 = true ∧
          (t.locals 2).holding = some (0, 11) ∧ (t.locals 3).holding = some (0, 11) ∧
          t.shared.nowMs = 11)
    (by decide +kernel) (by decide +kernel)
  obtain ⟨s, hrun, hpc, hclaimed, howner, hnow, s', hnext, hpending, hmeets, t, hexec, hends⟩ :=
    hreaches
  exact ⟨s, s', t, hrun, hpc, hnext, hclaimed, hpending, howner, hnow, .of_exec hexec hmeets,
    hends⟩

end CodeScope.Scheduler
