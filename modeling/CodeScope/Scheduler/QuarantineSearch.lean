import CodeScope.Library.Bisection
import CodeScope.Filter.Quarantine

/-! # The search for crashers

When a module's worker crashes, the scheduler runs it on parts of the module's file list to find out
which file is to blame. Every part is run several times, and only runs that end alike count; a run
that hangs or cannot start ends the search without blaming a file. The search starts over with the
crashers found so far taken out, until it finds none or has found its fill. -/

namespace CodeScope.Scheduler

open Text (Str str)
open Slices (slice)
open CodeScope.Filter (makeRelativeGlob)

def reproducibilityRuns : ℕ := 3

def quarantineMaxIter : ℕ := 10

/-- How one run of the worker ends; a worker's own clean timeout counts as `ok`. -/
inductive WorkerOutcome where
  | ok
  | crash (code : Int)
  | timeout
  | spawnFailed

/-- Crashes are equal whatever their codes. -/
def WorkerOutcome.agrees : WorkerOutcome → WorkerOutcome → Bool
  | .ok, .ok => true
  | .crash _, .crash _ => true
  | .timeout, .timeout => true
  | .spawnFailed, .spawnFailed => true
  | _, _ => false

inductive ReproducibleOutcome where
  | consistent (outcome : WorkerOutcome)
  | nonDeterministic

/-- What the search meets: whether its file list can be written and how the worker ends. The runs are
    numbered, so that the same files may end differently every time. -/
structure Oracle where
  written : ℕ → Bool
  outcome : ℕ → List Str → WorkerOutcome

/-! ## Repeated runs -/

section Runs

variable (oracle : Oracle) (subset : List Str)

/-- `left` more runs, from run `n` on, compared with the first. -/
def repeatRuns (first : WorkerOutcome) : ℕ → ℕ → ReproducibleOutcome × ℕ
  | 0, n => (.consistent first, n)
  | left + 1, n =>
    if first.agrees (oracle.outcome n subset) then repeatRuns first left (n + 1)
    else (.nonDeterministic, n + 1)

def runSubsetReproducible (n : ℕ) : ReproducibleOutcome × ℕ :=
  repeatRuns oracle subset (oracle.outcome n subset) (reproducibilityRuns - 1) (n + 1)

end Runs

/-! ## The search -/

section Search

variable (oracle : Oracle) (files : List Str)

/-- The window from `left` to `right`; `n` is the number of the next run. -/
def searchLoop (left right n : ℕ) : Option Str × ℕ :=
  if left ≤ right then
    let mid := (left + right) / 2
    let half := slice left (mid + 1 - left) files
    if oracle.written n = false then (none, n)
    else
      match runSubsetReproducible oracle half n with
      | (.consistent .ok, n') =>
        if files.length ≤ mid + 1 then (none, n') else searchLoop (mid + 1) right n'
      | (.consistent (.crash _), n') =>
        if left = mid then (files[left]?, n') else searchLoop left mid n'
      | (_, n') => (none, n')
  else (none, n)
termination_by right + 1 - left

def binarySearchCrasher (n : ℕ) : Option Str × ℕ :=
  if files = [] then (none, n) else searchLoop oracle files 0 (files.length - 1) n

end Search

/-! ## The outer loop -/

section Module

variable (oracle : Oracle) (glob : Str → Str) (files : List Str)

/-- `iters` more iterations, with these patterns found so far. -/
def quarantineLoop : ℕ → List Str → ℕ → List Str
  | 0, crashers, _ => crashers
  | iters + 1, crashers, n =>
    let active := files.filter fun f => glob f ∉ crashers
    if active = [] then crashers
    else
      match binarySearchCrasher oracle active n with
      | (some c, n') => quarantineLoop iters (crashers ++ [glob c]) n'
      | (none, _) => crashers

/-- `discovered` is the module's file list; without one nothing is quarantined. -/
def quarantineModule (moduleDir : Str) (discovered : Option (List Str)) : List Str :=
  match discovered with
  | none => []
  | some files =>
    if files = [] then []
    else quarantineLoop oracle (makeRelativeGlob · moduleDir) files quarantineMaxIter [] 0

end Module

/-! ## What the runs tell -/

section Facts

variable {oracle : Oracle} {subset files : List Str}

theorem agrees_self (o : WorkerOutcome) : o.agrees o = true := by
  cases o <;> rfl

variable {left n n' : ℕ}

theorem repeatRuns_consistent {first r : WorkerOutcome}
    (h : repeatRuns oracle subset first left n = (.consistent r, n')) :
    r = first ∧ n' = n + left ∧
      ∀ i < left, first.agrees (oracle.outcome (n + i) subset) = true := by
  induction left generalizing n with
  | zero =>
      obtain ⟨hr, hn⟩ := Prod.mk.inj h
      injection hr with hr
      exact ⟨hr.symm, hn.symm, fun i hi => absurd hi (Nat.not_lt_zero i)⟩
  | succ left ih =>
      rw [repeatRuns] at h
      split at h
      · rename_i hagree
        obtain ⟨hr, hn, hall⟩ := ih h
        refine ⟨hr, by omega, fun i hi => ?_⟩
        cases i with
        | zero => exact hagree
        | succ i =>
            have hi := hall i (Nat.lt_of_succ_lt_succ hi)
            rwa [Nat.add_assoc, Nat.add_comm 1 i] at hi
      · obtain ⟨hr, _⟩ := Prod.mk.inj h
        exact absurd hr (by simp)

theorem runSubset_consistent {r : WorkerOutcome}
    (h : runSubsetReproducible oracle subset n = (.consistent r, n')) :
    n' = n + reproducibilityRuns ∧
      ∀ i < reproducibilityRuns, r.agrees (oracle.outcome (n + i) subset) = true := by
  obtain ⟨hr, hn, hall⟩ := repeatRuns_consistent h
  refine ⟨by rw [hn]; rfl, fun i hi => ?_⟩
  rw [hr]
  cases i with
  | zero => exact agrees_self _
  | succ i =>
      have hi := hall i (Nat.lt_of_succ_lt_succ hi)
      rwa [Nat.add_assoc, Nat.add_comm 1 i] at hi

theorem repeatRuns_of_agree {first : WorkerOutcome}
    (h : ∀ m, first.agrees (oracle.outcome m subset) = true) :
    repeatRuns oracle subset first left n = (.consistent first, n + left) := by
  induction left generalizing n with
  | zero => rfl
  | succ left ih =>
      rw [repeatRuns, if_pos (h n), ih, Nat.add_assoc, Nat.add_comm 1 left]

/-! ## Soundness -/

/-- The file crashed in every run of a round in which it ran alone. -/
def CrashedAlone (oracle : Oracle) (f : Str) (first last : ℕ) : Prop :=
  ∃ m, first ≤ m ∧ m + reproducibilityRuns ≤ last ∧
    ∀ i < reproducibilityRuns, ∃ code, oracle.outcome (m + i) [f] = .crash code

theorem crash_of_agrees {code : Int} {o : WorkerOutcome}
    (h : WorkerOutcome.agrees (.crash code) o = true) : ∃ code', o = .crash code' := by
  cases o with
  | crash code' => exact ⟨code', rfl⟩
  | ok | timeout | spawnFailed => exact absurd h Bool.false_ne_true

theorem slice_one {i : ℕ} {f : Str} (h : files[i]? = some f) :
    slice i (i + 1 - i) files = [f] := by
  rw [Nat.add_sub_cancel_left, Slices.slice_eq_filterMap, List.range'_one,
    List.filterMap_cons_some h, List.filterMap_nil]

theorem CrashedAlone.mono {f : Str} {first first' last : ℕ} (h : CrashedAlone oracle f first' last)
    (hle : first ≤ first') : CrashedAlone oracle f first last := by
  obtain ⟨m, hm, hlast, hall⟩ := h
  exact ⟨m, Nat.le_trans hle hm, hlast, hall⟩

/-- What the loop returns crashed alone, in every run of a round. -/
theorem searchLoop_sound {right : ℕ} {f : Str}
    (h : searchLoop oracle files left right n = (some f, n')) :
    f ∈ files ∧ CrashedAlone oracle f n n' := by
  fun_induction searchLoop oracle files left right n with
  | case1 left right n hle hwritten | case2 left right n hle mid half hwritten n₁ hrun hend
  | case6 left right n hle mid half hwritten x n₁ hcrash hok hrun | case7 left right n hle =>
      exact absurd (Prod.mk.inj h).1 (by simp)
  | case3 left right n hle mid half hwritten n₁ hrun hend ih
  | case5 left right n hle mid half hwritten code n₁ hrun hone ih =>
      obtain ⟨hmem, halone⟩ := ih h
      have hn := (runSubset_consistent hrun).1
      exact ⟨hmem, halone.mono (by omega)⟩
  | case4 left right n hle mid half hwritten code n₁ hrun hone =>
      obtain ⟨hget, rfl⟩ := Prod.mk.inj h
      obtain ⟨hn, hall⟩ := runSubset_consistent hrun
      refine ⟨List.mem_of_getElem? hget, n, Nat.le_refl n, Nat.le_of_eq hn.symm, fun i hi => ?_⟩
      have hhalf : half = [f] := by
        have hshape : half = slice left (left + 1 - left) files :=
          congrArg (fun m => slice left (m + 1 - left) files) hone.symm
        rw [hshape, slice_one hget]
      rw [← hhalf]
      exact crash_of_agrees (hall i hi)

theorem binarySearchCrasher_sound {f : Str} (h : binarySearchCrasher oracle files n = (some f, n')) :
    f ∈ files ∧ CrashedAlone oracle f n n' := by
  rw [binarySearchCrasher] at h
  split at h
  · exact absurd (Prod.mk.inj h).1 (by simp)
  · exact searchLoop_sound h

/-! ## Completeness -/

/-- A part of the list crashes in every run if it has a bad file in it, and otherwise ends well. -/
structure CrashesOn (oracle : Oracle) (bad : Str → Bool) : Prop where
  written : ∀ n, oracle.written n = true
  crash : ∀ n subset, subset.any bad = true → ∃ code, oracle.outcome n subset = .crash code
  ok : ∀ n subset, subset.any bad = false → oracle.outcome n subset = .ok

variable {bad : Str → Bool}

theorem CrashesOn.run_crash (h : CrashesOn oracle bad) (n : ℕ) (hdirty : subset.any bad = true) :
    ∃ code n', runSubsetReproducible oracle subset n = (.consistent (.crash code), n') := by
  obtain ⟨code, hfirst⟩ := h.crash n subset hdirty
  refine ⟨code, n + 1 + (reproducibilityRuns - 1), ?_⟩
  rw [runSubsetReproducible, hfirst]
  refine repeatRuns_of_agree fun m => ?_
  obtain ⟨code', hm⟩ := h.crash m subset hdirty
  rw [hm]
  rfl

theorem CrashesOn.run_ok (h : CrashesOn oracle bad) (n : ℕ) (hclean : subset.any bad = false) :
    ∃ n', runSubsetReproducible oracle subset n = (.consistent .ok, n') := by
  refine ⟨n + 1 + (reproducibilityRuns - 1), ?_⟩
  rw [runSubsetReproducible, h.ok n subset hclean]
  refine repeatRuns_of_agree fun m => ?_
  rw [h.ok m subset hclean]
  rfl

theorem CrashesOn.clean_of_ok (h : CrashesOn oracle bad)
    (hrun : runSubsetReproducible oracle subset n = (.consistent .ok, n')) :
    subset.any bad = false := by
  cases hany : subset.any bad with
  | false => rfl
  | true =>
      obtain ⟨code, n'', hcrash⟩ := h.run_crash n hany
      rw [hcrash] at hrun
      exact absurd (Prod.mk.inj hrun).1 (by simp)

theorem CrashesOn.dirty_of_crash (h : CrashesOn oracle bad) {code : Int}
    (hrun : runSubsetReproducible oracle subset n = (.consistent (.crash code), n')) :
    subset.any bad = true := by
  cases hany : subset.any bad with
  | true => rfl
  | false =>
      obtain ⟨n'', hok⟩ := h.run_ok n hany
      rw [hok] at hrun
      exact absurd (Prod.mk.inj hrun).1 (by simp)

/-- The loop ends with the first bad file of the list. -/
theorem searchLoop_complete (h : CrashesOn oracle bad) {right : ℕ}
    (hwindow : Bisection.Narrowed bad files left right) :
    (searchLoop oracle files left right n).1 = files.find? bad := by
  fun_induction searchLoop oracle files left right n with
  | case1 left right n hle hwritten =>
      rw [h.written n] at hwritten
      exact absurd hwritten (by simp)
  | case2 left right n hle mid half hwritten n₁ hrun hend =>
      have hmid : left ≤ mid := by omega
      have hnext := hwindow.advance hmid (h.clean_of_ok hrun)
      exact (hnext.exhausted (Nat.lt_of_lt_of_le hnext.inside hend)).symm
  | case3 left right n hle mid half hwritten n₁ hrun hend ih =>
      have hmid : left ≤ mid := by omega
      exact ih (hwindow.advance hmid (h.clean_of_ok hrun))
  | case4 left right n hle mid half hwritten code n₁ hrun hone =>
      have hdirty := h.dirty_of_crash hrun
      have hshape : half = slice left (left + 1 - left) files :=
        congrArg (fun m => slice left (m + 1 - left) files) hone.symm
      rw [hshape] at hdirty
      exact (hwindow.found hdirty).symm
  | case5 left right n hle mid half hwritten code n₁ hrun hone ih =>
      have hmid : left ≤ mid := by omega
      have hright : mid ≤ right := by omega
      exact ih (hwindow.shrink hmid hright (h.dirty_of_crash hrun))
  | case6 left right n hle mid half hwritten x n₁ hok hcrash hrun =>
      cases hany : half.any bad with
      | true =>
          obtain ⟨code, n₂, hrun'⟩ := h.run_crash n hany
          rw [hrun'] at hrun
          exact (hcrash code (Prod.mk.inj hrun).1.symm).elim
      | false =>
          obtain ⟨n₂, hrun'⟩ := h.run_ok n hany
          rw [hrun'] at hrun
          exact (hok (Prod.mk.inj hrun).1.symm).elim
  | case7 left right n hle => exact (hwindow.exhausted (Nat.lt_of_not_le hle)).symm

theorem binarySearchCrasher_complete (h : CrashesOn oracle bad) (files : List Str) (n : ℕ) :
    (binarySearchCrasher oracle files n).1 = files.find? bad := by
  rw [binarySearchCrasher]
  split
  · rename_i hnil
    rw [hnil]
    rfl
  · rename_i hne
    exact searchLoop_complete h (Bisection.Narrowed.start hne)

/-! ## The outer loop finds the crashers one by one -/

variable (glob : Str → Str)

/-- The patterns of the bad files that no earlier pattern stands for, each once. -/
def remaining (bad : Str → Bool) (files : List Str) (crashers : List Str) : List Str :=
  (((files.filter fun f => glob f ∉ crashers).filter bad).map glob).eraseDups

theorem remaining_nil {crashers : List Str}
    (hnone : (files.filter fun f => glob f ∉ crashers).find? bad = none) :
    remaining glob bad files crashers = [] := by
  have hclean : (files.filter fun f => glob f ∉ crashers).filter bad = [] := by
    rw [List.filter_eq_nil_iff]
    exact List.find?_eq_none.mp hnone
  rw [remaining, hclean]
  rfl

/-- The first bad file comes first, and its pattern takes the files out that share it. -/
theorem remaining_cons {crashers : List Str} {c : Str}
    (hfirst : (files.filter fun f => glob f ∉ crashers).find? bad = some c) :
    remaining glob bad files crashers =
      glob c :: remaining glob bad files (crashers ++ [glob c]) := by
  obtain ⟨hbad, before, after, hsplit, hbefore⟩ := List.find?_eq_some_iff_append.mp hfirst
  have hskip : before.filter bad = [] := by
    rw [List.filter_eq_nil_iff]
    intro f hf
    simpa using hbefore f hf
  have hothers : (files.filter fun f => glob f ∉ crashers ++ [glob c]) =
      (files.filter fun f => glob f ∉ crashers).filter fun f => glob f ≠ glob c := by
    rw [List.filter_filter]
    refine List.filter_congr fun f _ => ?_
    by_cases hc : glob f = glob c <;> simp [hc]
  have hrest : (before.filter fun f => glob f ≠ glob c).filter bad = [] := by
    rw [List.filter_filter, List.filter_eq_nil_iff]
    intro f hf
    have hclean : bad f = false := by simpa using hbefore f hf
    simp [hclean]
  rw [remaining, remaining, hothers, hsplit, List.filter_append, hskip, List.nil_append,
    List.filter_cons_of_pos hbad, List.map_cons, List.eraseDups_cons, List.filter_append,
    List.filter_append, hrest, List.nil_append]
  congr 2
  have hself : ((c :: after).filter fun f => glob f ≠ glob c) =
      after.filter fun f => glob f ≠ glob c := List.filter_cons_of_neg (by simp)
  rw [hself, List.filter_map, List.filter_filter, List.filter_filter]
  congr 1
  refine List.filter_congr fun f _ => ?_
  rw [Bool.and_comm]
  congr 1
  by_cases hc : glob f = glob c <;> simp [hc]

theorem quarantineLoop_eq (h : CrashesOn oracle bad) (files : List Str) (iters : ℕ)
    (crashers : List Str) (n : ℕ) :
    quarantineLoop oracle glob files iters crashers n =
      crashers ++ (remaining glob bad files crashers).take iters := by
  induction iters generalizing crashers n with
  | zero => rw [quarantineLoop, List.take_zero, List.append_nil]
  | succ iters ih =>
      have hsearch := binarySearchCrasher_complete h (files.filter fun f => glob f ∉ crashers) n
      rw [quarantineLoop]
      split
      · rename_i hempty
        rw [remaining_nil glob (by rw [hempty]; rfl), List.take_nil, List.append_nil]
      · split
        · rename_i c n' hrun
          rw [hrun] at hsearch
          rw [ih, remaining_cons glob hsearch.symm, List.take_succ_cons, List.append_assoc,
            List.singleton_append]
        · rename_i n' hrun
          rw [hrun] at hsearch
          rw [remaining_nil glob hsearch.symm, List.take_nil, List.append_nil]

theorem quarantineModule_eq (h : CrashesOn oracle bad) (moduleDir : Str) (files : List Str) :
    quarantineModule oracle moduleDir (some files) =
      (((files.filter bad).map (makeRelativeGlob · moduleDir)).eraseDups).take quarantineMaxIter := by
  rw [quarantineModule]
  split
  · rename_i hnil
    rw [hnil]
    rfl
  · rw [quarantineLoop_eq _ h, List.nil_append, remaining]
    congr 4
    exact List.filter_eq_self.mpr fun f _ => by simp

end Facts

/-! ## The search as a whole -/

/-- **The search blames only files that crashed alone in every run of a round**, whatever the runs do.
    When exactly the parts with a bad file crash and the others end well, it finds the first bad
    file, and the outer loop collects the patterns of the bad files in the order of the list, each
    once, up to its limit. -/
theorem quarantine_search_correct :
    (∀ oracle files n n' f, binarySearchCrasher oracle files n = (some f, n') →
        f ∈ files ∧ CrashedAlone oracle f n n') ∧
      ∀ oracle bad, CrashesOn oracle bad →
        (∀ files n, (binarySearchCrasher oracle files n).1 = files.find? bad ∧
          ((binarySearchCrasher oracle files n).1 = none ↔ ∀ f ∈ files, bad f = false)) ∧
        ∀ moduleDir files,
          quarantineModule oracle moduleDir (some files) =
              (((files.filter bad).map (makeRelativeGlob · moduleDir)).eraseDups).take
                quarantineMaxIter ∧
            (quarantineModule oracle moduleDir (some files)).Nodup ∧
            (((files.filter bad).map (makeRelativeGlob · moduleDir)).Nodup →
              quarantineModule oracle moduleDir (some files) =
                ((files.filter bad).take quarantineMaxIter).map (makeRelativeGlob · moduleDir)) := by
  refine ⟨fun oracle files n n' f h => binarySearchCrasher_sound h, fun oracle bad h => ⟨?_, ?_⟩⟩
  · intro files n
    rw [binarySearchCrasher_complete h, List.find?_eq_none]
    refine ⟨rfl, forall₂_congr fun f _ => ?_⟩
    rw [Bool.not_eq_true]
  · intro moduleDir files
    rw [quarantineModule_eq h]
    refine ⟨rfl, (Slices.nodup_eraseDups _).sublist (List.take_sublist _ _), fun hnodup => ?_⟩
    rw [Slices.eraseDups_eq_self hnodup, List.map_take]

/-- The worker crashes on `b.c`, and on nothing else. -/
theorem quarantine_search_crasher :
    (binarySearchCrasher ⟨fun _ => true, fun _ subset =>
        if subset.any (· = str "b.c") then .crash 139 else .ok⟩
      [str "a.c", str "b.c", str "c.c"] 0).1 = some (str "b.c") := by
  have hcrashes : CrashesOn ⟨fun _ => true, fun _ subset =>
      if subset.any (· = str "b.c") then .crash 139 else .ok⟩ (· = str "b.c") := by
    refine ⟨fun _ => rfl, fun n subset hany => ⟨139, if_pos hany⟩, fun n subset hnone => ?_⟩
    refine if_neg ?_
    rw [hnone]
    exact Bool.false_ne_true
  exact ((quarantine_search_correct.2 _ _ hcrashes).1 _ 0).1.trans (by decide)

/-- A worker that hangs on the files without a crasher keeps the crasher hidden; and of two crashers
    whose paths differ in their separators only one pattern is found. -/
theorem quarantine_search_blind :
    (binarySearchCrasher ⟨fun _ => true, fun _ subset =>
        if subset.any (· = str "b.c") then .crash 139 else .timeout⟩
      [str "a.c", str "b.c"] 0).1 = none ∧
      quarantineModule ⟨fun _ => true, fun _ subset => if subset = [] then .ok else .crash 139⟩
        (str "/p/m") (some [str "/p/m/a/b.c", str "/p/m/a\\b.c"]) = [str "**/a/b.c"] := by
  decide +kernel

end CodeScope.Scheduler
