import CodeScope.Library.Walks

/-! # Breadth-first search with parents

A queue of nodes that were visited, each with the node it was visited from. The search ends when the
target is visited or the queue is empty. It goes through the nodes level by level (`Level`), so that
the parents lead from the target back to the start along a shortest path (`trace_some`), and it
misses only what no walk leads to (`trace_none`). Which of the shortest paths it finds depends on the
order of the successors: one whose steps come first is found (`trace_first`). -/

namespace BreadthFirst

open Walks

variable {α : Type} [DecidableEq α]

structure State (α : Type) where
  visited : List α
  parent : α → Option α
  queue : List α

/-- The successors of `cur`, up to the target; it tells whether the target was visited. -/
def look (target cur : α) : List α → State α → Bool × State α
  | [], s => (false, s)
  | nb :: rest, s =>
    if nb ∈ s.visited then look target cur rest s
    else
      let s' : State α :=
        { s with visited := nb :: s.visited, parent := Function.update s.parent nb (some cur) }
      if nb = target then (true, s') else look target cur rest { s' with queue := s'.queue ++ [nb] }

/-- The loop over the queue, for `fuel` rounds at most. -/
def search (succ : α → List α) (target : α) : ℕ → State α → Option (Bool × State α)
  | fuel, s =>
    match s.queue with
    | [] => some (false, s)
    | cur :: rest =>
      match fuel with
      | 0 => none
      | fuel + 1 =>
        let r := look target cur (succ cur) { s with queue := rest }
        if r.1 then some r else search succ target fuel r.2

/-- From a node back along the parents, for `fuel` rounds at most; `missing` stands for a parent that
    is not there. -/
def walkBack (parent : α → Option α) (missing start : α) : ℕ → α → Option (List α)
  | 0, _ => none
  | fuel + 1, node =>
    if node = start then some [start]
    else (walkBack parent missing start fuel ((parent node).getD missing)).map fun back =>
      node :: back

/-- The path that is found, if one is: `none` where the rounds do not suffice. -/
def trace (succ : α → List α) (missing : α) (fuel : ℕ) (start target : α) :
    Option (Option (List α)) :=
  match search succ target fuel ⟨[start], fun _ => none, [start]⟩ with
  | none => none
  | some (false, _) => some none
  | some (true, s) =>
    (walkBack s.parent missing start (fuel + 2) target).map fun back => some back.reverse

variable {succ : α → List α} {start target cur : α} {s : State α}

theorem search_nil (h : s.queue = []) (fuel : ℕ) : search succ target fuel s = some (false, s) := by
  unfold search
  rw [h]

theorem search_cons {rest : List α} (h : s.queue = cur :: rest) (fuel : ℕ) :
    search succ target (fuel + 1) s =
      if (look target cur (succ cur) { s with queue := rest }).1 then
        some (look target cur (succ cur) { s with queue := rest })
      else search succ target fuel (look target cur (succ cur) { s with queue := rest }).2 := by
  conv_lhs => unfold search
  rw [h]

/-! ## One expansion -/

/-- Where the target is not among the successors, the new ones are queued and nothing else is
    changed. -/
theorem look_of_not_mem {ns : List α} (cur : α) (h : target ∉ ns) (s : State α) :
    (look target cur ns s).1 = false ∧
      ∃ new, (look target cur ns s).2.queue = s.queue ++ new ∧ (∀ v ∈ new, v ∈ ns) ∧
        (∀ v, v ∈ (look target cur ns s).2.visited ↔ v ∈ s.visited ∨ v ∈ ns) ∧
        ∀ v ∈ s.visited, (look target cur ns s).2.parent v = s.parent v := by
  induction ns generalizing s with
  | nil => exact ⟨rfl, [], by simp [look], by simp, by simp [look], fun _ _ => rfl⟩
  | cons nb ns ih =>
      obtain ⟨hne, hrest⟩ := not_or.mp (fun hm => h (List.mem_cons.mpr hm))
      rw [look]
      by_cases hvisited : nb ∈ s.visited
      · rw [if_pos hvisited]
        obtain ⟨hfound, new, hqueue, hnew, hmem, hparent⟩ := ih hrest s
        refine ⟨hfound, new, hqueue, fun v hv => List.mem_cons_of_mem _ (hnew v hv), fun v => ?_,
          hparent⟩
        rw [hmem, List.mem_cons]
        constructor
        · exact fun hv => hv.imp id Or.inr
        · intro hv
          rcases hv with hv | rfl | hv
          · exact Or.inl hv
          · exact Or.inl hvisited
          · exact Or.inr hv
      · rw [if_neg hvisited, if_neg (Ne.symm hne)]
        obtain ⟨hfound, new, hqueue, hnew, hmem, hparent⟩ := ih hrest
          ⟨nb :: s.visited, Function.update s.parent nb (some cur), s.queue ++ [nb]⟩
        refine ⟨hfound, nb :: new, ?_, ?_, fun v => ?_, fun v hv => ?_⟩
        · rw [hqueue, List.append_assoc]
          rfl
        · intro v hv
          rcases List.mem_cons.mp hv with rfl | hv
          · exact List.mem_cons_self
          · exact List.mem_cons_of_mem _ (hnew v hv)
        · rw [hmem, List.mem_cons, List.mem_cons]
          tauto
        · rw [hparent v (List.mem_cons_of_mem _ hv)]
          refine Function.update_of_ne ?_ _ _
          rintro rfl
          exact hvisited hv

theorem look_visited (cur : α) (ns : List α) (h : target ∈ s.visited) :
    (look target cur ns s).1 = false ∧ target ∈ (look target cur ns s).2.visited := by
  induction ns generalizing s with
  | nil => exact ⟨rfl, h⟩
  | cons nb ns ih =>
      rw [look]
      by_cases hvisited : nb ∈ s.visited
      · rw [if_pos hvisited]
        exact ih h
      · have hne : nb ≠ target := fun heq => hvisited (heq ▸ h)
        rw [if_neg hvisited, if_neg hne]
        exact ih (List.mem_cons_of_mem _ h)

theorem search_visited {fuel : ℕ} (h : target ∈ s.visited) {r : Bool × State α}
    (hr : search succ target fuel s = some r) : r.1 = false := by
  induction fuel generalizing s with
  | zero =>
      cases hqueue : s.queue with
      | nil =>
          rw [search_nil hqueue] at hr
          rw [← Option.some.inj hr]
      | cons cur rest =>
          unfold search at hr
          rw [hqueue] at hr
          exact absurd hr (by simp)
  | succ fuel ih =>
      cases hqueue : s.queue with
      | nil =>
          rw [search_nil hqueue] at hr
          rw [← Option.some.inj hr]
      | cons cur rest =>
          obtain ⟨hlook, hmem⟩ := look_visited (s := { s with queue := rest }) cur
            (succ cur) h
          rw [search_cons hqueue, hlook, if_neg (by simp)] at hr
          exact ih hmem hr

/-- What can still be visited, and what is queued. -/
def left (all : List α) (s : State α) : ℕ :=
  (all.toFinset \ s.visited.toFinset).card + s.queue.length

theorem left_look {all ns : List α} (hall : ∀ v ∈ ns, v ∈ all) (s : State α) :
    left all (look target cur ns s).2 ≤ left all s := by
  induction ns generalizing s with
  | nil => exact le_rfl
  | cons nb ns ih =>
      have hrest : ∀ v ∈ ns, v ∈ all := fun v hv => hall v (List.mem_cons_of_mem _ hv)
      rw [look]
      by_cases hvisited : nb ∈ s.visited
      · rw [if_pos hvisited]
        exact ih hrest s
      · rw [if_neg hvisited]
        have hless : (all.toFinset \ (nb :: s.visited).toFinset).card + 1 ≤
            (all.toFinset \ s.visited.toFinset).card := by
          refine Finset.card_lt_card (Finset.ssubset_iff_subset_ne.mpr ⟨fun v hv => ?_, fun heq => ?_⟩)
          · simp only [Finset.mem_sdiff, List.mem_toFinset, List.mem_cons, not_or] at hv ⊢
            exact ⟨hv.1, hv.2.2⟩
          · have hin : nb ∈ all.toFinset \ s.visited.toFinset := by
              simp only [Finset.mem_sdiff, List.mem_toFinset]
              exact ⟨hall nb List.mem_cons_self, hvisited⟩
            rw [← heq] at hin
            simp at hin
        by_cases htarget : nb = target
        · rw [if_pos htarget]
          unfold left
          dsimp only
          omega
        · rw [if_neg htarget]
          refine (ih hrest _).trans ?_
          unfold left
          simp only [List.length_append, List.length_singleton]
          omega

/-- **The search ends** within as many rounds as there are nodes left. -/
theorem search_isSome {all : List α} (hall : ∀ v, ∀ w ∈ succ v, w ∈ all) {fuel : ℕ}
    (h : left all s ≤ fuel) : ∃ r, search succ target fuel s = some r := by
  induction fuel generalizing s with
  | zero =>
      have hnil : s.queue = [] := by
        rw [← List.length_eq_zero_iff]
        unfold left at h
        omega
      exact ⟨_, search_nil hnil 0⟩
  | succ fuel ih =>
      cases hqueue : s.queue with
      | nil => exact ⟨_, search_nil hqueue _⟩
      | cons cur rest =>
          rw [search_cons hqueue]
          split
          · exact ⟨_, rfl⟩
          · refine ih ((left_look (hall cur) { s with queue := rest }).trans ?_)
            unfold left at h ⊢
            rw [hqueue, List.length_cons] at h
            dsimp only
            omega

/-! ## Level by level -/

section Levels

variable (succ start)

/-- The parents lead one level closer to the start. -/
def Parents (s : State α) : Prop :=
  ∀ v ∈ s.visited, v ≠ start → ∃ u ∈ s.visited, s.parent v = some u ∧ v ∈ succ u ∧
    ∃ d, IsDistance succ {start} d u ∧ IsDistance succ {start} (d + 1) v

/-- The search is at level `i`: `here` is what is still queued of this level, `beyond` is what has
    been found of the next one, and `pending` are the successors that are being looked at. -/
structure Level (i : ℕ) (here beyond pending : List α) (s : State α) : Prop where
  queue : s.queue = here ++ beyond
  at_level : ∀ v ∈ here, v ∈ s.visited ∧ IsDistance succ {start} i v
  at_next : ∀ v ∈ beyond, v ∈ s.visited ∧ IsDistance succ {start} (i + 1) v
  near : ∀ v ∈ s.visited, (∃ d ≤ i, IsDistance succ {start} d v) ∨ v ∈ beyond
  seen : ∀ d ≤ i, ∀ v, IsDistance succ {start} d v → v ∈ s.visited
  next : ∀ v, IsDistance succ {start} (i + 1) v →
    v ∈ s.visited ∨ v ∈ pending ∨ ∃ u ∈ here, v ∈ succ u
  parents : Parents succ start s

end Levels

variable {i : ℕ} {here beyond pending : List α}

omit [DecidableEq α] in
/-- When nothing is queued of a level, the search is at the next one. -/
theorem Level.shift (h : Level succ start i [] beyond [] s) :
    Level succ start (i + 1) beyond [] [] s where
  queue := by rw [h.queue, List.nil_append, List.append_nil]
  at_level := h.at_next
  at_next := by simp
  near := by
    intro v hv
    rcases h.near v hv with ⟨d, hd, hdist⟩ | hbeyond
    · exact Or.inl ⟨d, by omega, hdist⟩
    · exact Or.inl ⟨i + 1, le_rfl, (h.at_next v hbeyond).2⟩
  seen := by
    intro d hd v hv
    rcases Nat.lt_or_eq_of_le hd with hlt | rfl
    · exact h.seen d (by omega) v hv
    · rcases h.next v hv with hseen | hpending | ⟨u, hu, -⟩
      · exact hseen
      · exact absurd hpending List.not_mem_nil
      · exact absurd hu List.not_mem_nil
  next := by
    intro v hv
    obtain ⟨u, hu, hstep⟩ := hv.pred
    refine Or.inr (Or.inr ⟨u, ?_, hstep⟩)
    rcases h.next u hu with hseen | hpending | ⟨_, hnil, -⟩
    · rcases h.near u hseen with ⟨d, hd, hdist⟩ | hbeyond
      · have heq := hdist.unique hu
        omega
      · exact hbeyond
    · exact absurd hpending List.not_mem_nil
    · exact absurd hnil List.not_mem_nil
  parents := h.parents

omit [DecidableEq α] in
/-- A node of the level is taken from the queue. -/
theorem Level.pop (h : Level succ start i (cur :: here) beyond [] s) :
    Level succ start i here beyond (succ cur) { s with queue := here ++ beyond } where
  queue := rfl
  at_level := fun v hv => h.at_level v (List.mem_cons_of_mem _ hv)
  at_next := h.at_next
  near := h.near
  seen := h.seen
  next := by
    intro v hv
    rcases h.next v hv with hseen | hpending | ⟨u, hu, hstep⟩
    · exact Or.inl hseen
    · exact absurd hpending List.not_mem_nil
    · rcases List.mem_cons.mp hu with rfl | hu
      · exact Or.inr (Or.inl hstep)
      · exact Or.inr (Or.inr ⟨u, hu, hstep⟩)
  parents := h.parents

/-- A successor is visited for the first time. -/
theorem Level.parents_visit {nb : α} (h : Level succ start i here beyond pending s)
    (hcur : cur ∈ s.visited ∧ IsDistance succ {start} i cur) (hstep : nb ∈ succ cur)
    (hnew : nb ∉ s.visited) :
    IsDistance succ {start} (i + 1) nb ∧ Parents succ start
      { s with visited := nb :: s.visited, parent := Function.update s.parent nb (some cur) } := by
  have hdist : IsDistance succ {start} (i + 1) nb := by
    refine ⟨hcur.2.reaches.step hstep, fun m hm => ?_⟩
    by_contra hlt
    obtain ⟨d, hd, hdist⟩ := hm.distance
    exact hnew (h.seen d (by omega) nb hdist)
  refine ⟨hdist, fun v hv hne => ?_⟩
  rcases List.mem_cons.mp hv with rfl | hold
  · exact ⟨cur, List.mem_cons_of_mem _ hcur.1, Function.update_self _ _ _, hstep, i, hcur.2, hdist⟩
  · obtain ⟨u, hu, hparent, hrest⟩ := h.parents v hold hne
    have hvnb : v ≠ nb := fun heq => hnew (heq ▸ hold)
    exact ⟨u, List.mem_cons_of_mem _ hu, (Function.update_of_ne hvnb _ _).trans hparent, hrest⟩

/-- **What an expansion leaves**: the target with its distance, or the level without the node. -/
theorem Level.look (hcur : cur ∈ s.visited ∧ IsDistance succ {start} i cur) {ns : List α}
    (hns : ∀ v ∈ ns, v ∈ succ cur) (h : Level succ start i here beyond ns s)
    (htarget : target ∉ s.visited) :
    ((look target cur ns s).1 = true → IsDistance succ {start} (i + 1) target ∧
        target ∈ (look target cur ns s).2.visited ∧
        Parents succ start (look target cur ns s).2) ∧
      ((look target cur ns s).1 = false → target ∉ (look target cur ns s).2.visited ∧
        ∃ beyond', Level succ start i here beyond' [] (look target cur ns s).2) := by
  induction ns generalizing s beyond with
  | nil => exact ⟨fun hf => absurd hf (by simp [BreadthFirst.look]), fun _ => ⟨htarget, beyond, h⟩⟩
  | cons nb ns ih =>
      have hrest : ∀ v ∈ ns, v ∈ succ cur := fun v hv => hns v (List.mem_cons_of_mem _ hv)
      rw [BreadthFirst.look]
      by_cases hvisited : nb ∈ s.visited
      · rw [if_pos hvisited]
        refine ih hcur hrest ⟨h.queue, h.at_level, h.at_next, h.near, h.seen, fun v hv => ?_,
          h.parents⟩ htarget
        rcases h.next v hv with hseen | hpending | hlater
        · exact Or.inl hseen
        · rcases List.mem_cons.mp hpending with rfl | hpending
          · exact Or.inl hvisited
          · exact Or.inr (Or.inl hpending)
        · exact Or.inr (Or.inr hlater)
      · rw [if_neg hvisited]
        obtain ⟨hdist, hparents⟩ := h.parents_visit hcur (hns nb List.mem_cons_self) hvisited
        by_cases heq : nb = target
        · rw [if_pos heq]
          subst heq
          exact ⟨fun _ => ⟨hdist, List.mem_cons_self, hparents⟩, fun hf => absurd hf (by simp)⟩
        · rw [if_neg heq]
          suffices hlevel : Level succ start i here (beyond ++ [nb]) ns
              ⟨nb :: s.visited, Function.update s.parent nb (some cur), s.queue ++ [nb]⟩ by
            refine ih ⟨List.mem_cons_of_mem _ hcur.1, hcur.2⟩ hrest hlevel fun hmem => ?_
            rcases List.mem_cons.mp hmem with rfl | hmem
            · exact heq rfl
            · exact htarget hmem
          refine ⟨?_, ?_, ?_, ?_, ?_, ?_, hparents⟩
          · rw [h.queue, List.append_assoc]
          · exact fun v hv => ⟨List.mem_cons_of_mem _ (h.at_level v hv).1, (h.at_level v hv).2⟩
          · intro v hv
            rcases List.mem_append.mp hv with hv | hv
            · exact ⟨List.mem_cons_of_mem _ (h.at_next v hv).1, (h.at_next v hv).2⟩
            · rw [List.mem_singleton.mp hv]
              exact ⟨List.mem_cons_self, hdist⟩
          · intro v hv
            rcases List.mem_cons.mp hv with rfl | hv
            · exact Or.inr (List.mem_append_right _ (List.mem_singleton_self _))
            · exact (h.near v hv).imp id (List.mem_append_left _)
          · exact fun d hd v hv => List.mem_cons_of_mem _ (h.seen d hd v hv)
          · intro v hv
            rcases h.next v hv with hseen | hpending | hlater
            · exact Or.inl (List.mem_cons_of_mem _ hseen)
            · rcases List.mem_cons.mp hpending with rfl | hpending
              · exact Or.inl List.mem_cons_self
              · exact Or.inr (Or.inl hpending)
            · exact Or.inr (Or.inr hlater)

/-- **What the search finds** lies at its distance from the start, with parents all the way back, and
    what it does not find no walk leads to. -/
theorem search_spec {fuel : ℕ} (h : Level succ start i here beyond [] s)
    (htarget : target ∉ s.visited) {r : Bool × State α}
    (hr : search succ target fuel s = some r) :
    (r.1 = true → target ∈ r.2.visited ∧ Parents succ start r.2 ∧
        ∃ d ≤ i + 1 + fuel, IsDistance succ {start} d target) ∧
      (r.1 = false → ∀ n, ¬ Walk succ n start target) := by
  -- nothing is queued any more
  have hempty : ∀ {i here beyond s}, Level succ start i here beyond [] s → target ∉ s.visited →
      s.queue = [] → ∀ n, ¬ Walk succ n start target := by
    intro i here beyond s h htarget hqueue n hwalk
    obtain ⟨rfl, rfl⟩ := List.append_eq_nil_iff.mp (h.queue.symm.trans hqueue)
    obtain ⟨d, -, hdist⟩ := Reaches.distance ⟨start, Set.mem_singleton start, hwalk⟩
    rcases Nat.lt_or_ge i d with hfar | hnear
    · obtain ⟨u, hu⟩ := hdist.exists_le hfar
      rcases h.next u hu with hseen | hpending | ⟨_, hnil, -⟩
      · rcases h.near u hseen with ⟨d', hd', hdist'⟩ | hnil
        · have heq := hdist'.unique hu
          omega
        · exact absurd hnil List.not_mem_nil
      · exact absurd hpending List.not_mem_nil
      · exact absurd hnil List.not_mem_nil
    · exact htarget (h.seen d hnear target hdist)
  induction fuel generalizing i here beyond s with
  | zero =>
      cases hqueue : s.queue with
      | nil =>
          rw [search_nil hqueue] at hr
          obtain rfl := Option.some.inj hr
          exact ⟨fun hf => absurd hf (by simp), fun _ => hempty h htarget hqueue⟩
      | cons cur rest =>
          unfold search at hr
          rw [hqueue] at hr
          exact absurd hr (by simp)
  | succ fuel ih =>
      cases hqueue : s.queue with
      | nil =>
          rw [search_nil hqueue] at hr
          obtain rfl := Option.some.inj hr
          exact ⟨fun hf => absurd hf (by simp), fun _ => hempty h htarget hqueue⟩
      | cons cur rest =>
          -- the first of the queue belongs to the level, or the level is done
          obtain ⟨j, here', beyond', hj, hlevel⟩ : ∃ j here' beyond', j ≤ i + 1 ∧
              Level succ start j (cur :: here') beyond' [] s := by
            cases here with
            | nil =>
                have hbeyond : beyond = cur :: rest := by
                  rw [← hqueue, h.queue, List.nil_append]
                subst hbeyond
                exact ⟨i + 1, rest, [], le_rfl, h.shift⟩
            | cons v here =>
                have hv : v = cur := by
                  have heq := h.queue.symm.trans hqueue
                  exact (List.cons.inj heq).1
                subst hv
                exact ⟨i, here, beyond, Nat.le_succ i, h⟩
          have hrest : here' ++ beyond' = rest :=
            (List.cons.inj (hlevel.queue.symm.trans hqueue)).2
          have hpop := hlevel.pop
          rw [hrest] at hpop
          obtain ⟨hfound, hmissed⟩ := Level.look (s := { s with queue := rest })
            (hlevel.at_level cur List.mem_cons_self) (fun v hv => hv) hpop htarget
          rw [search_cons hqueue] at hr
          cases hlook : (look target cur (succ cur) { s with queue := rest }).1 with
          | true =>
              rw [hlook, if_pos rfl] at hr
              obtain rfl := Option.some.inj hr
              obtain ⟨hdist, hvisited, hparents⟩ := hfound hlook
              exact ⟨fun _ => ⟨hvisited, hparents, j + 1, by omega, hdist⟩,
                fun hf => absurd (hlook.symm.trans hf) (by simp)⟩
          | false =>
              rw [hlook, if_neg (by simp)] at hr
              obtain ⟨hunseen, beyond'', hnext⟩ := hmissed hlook
              obtain ⟨hf, hm⟩ := ih hnext hunseen hr
              refine ⟨fun hr1 => ?_, hm⟩
              obtain ⟨hvisited, hparents, d, hd, hdist⟩ := hf hr1
              exact ⟨hvisited, hparents, d, by omega, hdist⟩

omit [DecidableEq α] in
theorem level_start (succ : α → List α) (start : α) :
    Level succ start 0 [start] [] [] ⟨[start], fun _ => none, [start]⟩ where
  queue := rfl
  at_level := by
    intro v hv
    rw [List.mem_singleton.mp hv]
    exact ⟨List.mem_singleton_self _, isDistance_zero.mpr rfl⟩
  at_next := by simp
  near := fun v hv => Or.inl ⟨0, le_rfl, isDistance_zero.mpr (List.mem_singleton.mp hv)⟩
  seen := by
    intro d hd v hv
    rw [Nat.le_zero.mp hd] at hv
    have heq := Set.mem_singleton_iff.mp (isDistance_zero.mp hv)
    exact List.mem_singleton.mpr heq
  next := by
    intro v hv
    obtain ⟨u, hu, hstep⟩ := hv.pred
    have heq := Set.mem_singleton_iff.mp (isDistance_zero.mp hu)
    exact Or.inr (Or.inr ⟨u, List.mem_singleton.mpr heq, hstep⟩)
  parents := fun v hv hne => absurd (List.mem_singleton.mp hv) hne

/-! ## The way back -/

/-- From a node that was visited the parents lead back to the start, one level at a time. -/
theorem walkBack_spec (h : Parents succ start s) (missing : α) {d : ℕ} {node : α}
    (hnode : node ∈ s.visited) (hd : IsDistance succ {start} d node) :
    ∃ back : List α, back.length = d + 1 ∧ IsPath succ start node back.reverse ∧
      ∀ fuel, d < fuel → walkBack s.parent missing start fuel node = some back := by
  induction d generalizing node with
  | zero =>
      have heq := Set.mem_singleton_iff.mp (isDistance_zero.mp hd)
      subst heq
      refine ⟨[node], rfl, isPath_singleton node, fun fuel hfuel => ?_⟩
      obtain ⟨fuel, rfl⟩ := Nat.exists_eq_succ_of_ne_zero (Nat.ne_of_gt hfuel)
      rw [walkBack, if_pos rfl]
  | succ d ih =>
      have hne : node ≠ start := by
        rintro rfl
        have hzero := hd.unique (isDistance_zero.mpr rfl)
        omega
      obtain ⟨u, hu, hparent, hstep, d', hdist, hdist'⟩ := h node hnode hne
      have hd' : d' = d := by
        have heq := hdist'.unique hd
        omega
      subst hd'
      obtain ⟨back, hlength, hpath, hback⟩ := ih hu hdist
      refine ⟨node :: back, by rw [List.length_cons, hlength], ?_, fun fuel hfuel => ?_⟩
      · rw [List.reverse_cons]
        exact hpath.snoc hstep
      · obtain ⟨fuel, rfl⟩ := Nat.exists_eq_succ_of_ne_zero (Nat.ne_of_gt (Nat.zero_lt_of_lt hfuel))
        rw [walkBack, if_neg hne, hparent, Option.getD_some, hback fuel (Nat.lt_of_succ_lt_succ hfuel)]
        rfl

/-! ## The path that is found -/

section Trace

variable {all : List α} {fuel : ℕ} (missing : α) (hall : ∀ v, ∀ w ∈ succ v, w ∈ all)
  (hfuel : all.length < fuel)
include hall hfuel

theorem search_start (start target : α) :
    ∃ r, search succ target fuel ⟨[start], fun _ => none, [start]⟩ = some r := by
  refine search_isSome hall ?_
  have hcard : (all.toFinset \ [start].toFinset).card ≤ all.length :=
    (Finset.card_le_card Finset.sdiff_subset).trans all.toFinset_card_le
  show (all.toFinset \ [start].toFinset).card + 1 ≤ fuel
  omega

/-- **A path is found to every other node that a walk leads to**, a shortest one, and nothing is
    found elsewhere. -/
theorem trace_spec (hne : start ≠ target) :
    ∃ r, trace succ missing fuel start target = some r ∧
      (∀ path, r = some path → IsPath succ start target path ∧
        IsDistance succ {start} (path.length - 1) target) ∧
      (r = none → ∀ n, ¬ Walk succ n start target) := by
  have htarget : target ∉ [start] := fun h => hne (List.mem_singleton.mp h).symm
  obtain ⟨⟨found, s⟩, hsearch⟩ := search_start hall hfuel start target
  obtain ⟨hfound, hmissed⟩ := search_spec (level_start succ start) htarget hsearch
  rw [trace, hsearch]
  cases found with
  | false => exact ⟨none, rfl, fun path hpath => absurd hpath (by simp), fun _ => hmissed rfl⟩
  | true =>
      obtain ⟨hvisited, hparents, d, hd, hdist⟩ := hfound rfl
      obtain ⟨back, hlength, hpath, hback⟩ := walkBack_spec hparents missing hvisited hdist
      refine ⟨some back.reverse, ?_, fun path heq => ?_, fun heq => absurd heq (by simp)⟩
      · show (walkBack s.parent missing start (fuel + 2) target).map _ = _
        rw [hback (fuel + 2) (by omega)]
        rfl
      · obtain rfl := Option.some.inj heq
        rw [List.length_reverse, hlength]
        exact ⟨hpath, hdist⟩

theorem trace_self : trace succ missing fuel start start = some none := by
  obtain ⟨⟨found, s⟩, hsearch⟩ := search_start hall hfuel start start
  have hfound := search_visited (List.mem_singleton_self start) hsearch
  rw [trace, hsearch]
  cases found with
  | false => rfl
  | true => exact absurd hfound (by simp)

end Trace

/-! ## Which path is found -/

section First

variable (succ) (c : ℕ → α) (k : ℕ)

/-- A shortest path to the target, `c 0` to `c k`, on which the next step always comes first. -/
structure StepsFirst (target : α) : Prop where
  last : c k = target
  first : ∀ j < k, ∃ ns, succ (c j) = c (j + 1) :: ns
  distance : ∀ j ≤ k, IsDistance succ {c 0} j (c j)

/-- The search has come to `c i`, which is the first of its level. -/
structure Ahead (i : ℕ) (before after : List α) (s : State α) : Prop where
  queue : s.queue = before ++ c i :: after
  nearer : ∀ v ∈ before, ∃ m < i, Reaches succ {c 0} m v
  near : ∀ v, v ∈ s.visited ∨ v ∈ after → ∃ m ≤ i, Reaches succ {c 0} m v
  parents : ∀ j < i, c (j + 1) ∈ s.visited ∧ s.parent (c (j + 1)) = some (c j)

variable {succ} {c} {k}

/-- **The search keeps to the path**: it finds the target, with parents that lead back along it. -/
theorem search_first (h : StepsFirst succ c k target) {fuel : ℕ} {before after : List α}
    (hi : i < k) (hahead : Ahead succ c i before after s) {r : Bool × State α}
    (hr : search succ target fuel s = some r) :
    r.1 = true ∧ ∀ j < k, r.2.parent (c (j + 1)) = some (c j) := by
  -- what is reached in fewer steps than the target is not the target
  have hfar : ∀ {v m}, Reaches succ {c 0} m v → m < k → v ≠ target := by
    rintro v m hv hm rfl
    have hle := (h.last ▸ h.distance k le_rfl).least m hv
    omega
  induction fuel generalizing i before after s with
  | zero =>
      unfold search at hr
      rw [hahead.queue] at hr
      cases before <;> exact absurd hr (by simp)
  | succ fuel ih =>
      cases before with
      | cons u before =>
          obtain ⟨m, hm, hu⟩ := hahead.nearer u List.mem_cons_self
          have hnot : target ∉ succ u := fun hmem => hfar (hu.step hmem) (by omega) rfl
          obtain ⟨hlook, new, hqueue, hnew, hmem, hparent⟩ := look_of_not_mem u hnot
            { s with queue := before ++ c i :: after }
          have hfront : s.queue = u :: (before ++ c i :: after) := hahead.queue
          rw [search_cons hfront, hlook, if_neg (by simp)] at hr
          suffices hnext : Ahead succ c i before (after ++ new)
            (look target u (succ u) { s with queue := before ++ c i :: after }).2 from ih hi hnext hr
          refine ⟨?_, ?_, ?_, ?_⟩
          · rw [hqueue]
            simp
          · exact fun v hv => hahead.nearer v (List.mem_cons_of_mem _ hv)
          · intro v hv
            by_cases hold : v ∈ s.visited ∨ v ∈ after
            · exact hahead.near v hold
            · have hsucc : v ∈ succ u := by
                rcases hv with hv | hv
                · exact ((hmem v).mp hv).resolve_left fun hs => hold (Or.inl hs)
                · exact hnew v ((List.mem_append.mp hv).resolve_left fun ha => hold (Or.inr ha))
              exact ⟨m + 1, hm, hu.step hsucc⟩
          · intro j hj
            obtain ⟨hvisited, hp⟩ := hahead.parents j hj
            exact ⟨(hmem _).mpr (Or.inl hvisited), (hparent _ hvisited).trans hp⟩
      | nil =>
          obtain ⟨ns, hns⟩ := h.first i hi
          have hreach : Reaches succ {c 0} i (c i) := (h.distance i hi.le).reaches
          have hnew : c (i + 1) ∉ s.visited := by
            intro hmem
            obtain ⟨m, hm, hv⟩ := hahead.near _ (Or.inl hmem)
            have hle := (h.distance (i + 1) hi).least m hv
            omega
          have hparents : ∀ j < i + 1, c (j + 1) ∈ c (i + 1) :: s.visited ∧
              Function.update s.parent (c (i + 1)) (some (c i)) (c (j + 1)) = some (c j) := by
            intro j hj
            rcases Nat.lt_or_eq_of_le (Nat.le_of_lt_succ hj) with hlt | rfl
            · obtain ⟨hvisited, hp⟩ := hahead.parents j hlt
              have hne : c (j + 1) ≠ c (i + 1) := fun heq => hnew (heq ▸ hvisited)
              exact ⟨List.mem_cons_of_mem _ hvisited, (Function.update_of_ne hne _ _).trans hp⟩
            · exact ⟨List.mem_cons_self, Function.update_self _ _ _⟩
          have hfront : s.queue = c i :: after := hahead.queue
          rw [search_cons hfront, hns, look, if_neg hnew] at hr
          by_cases hlast : i + 1 = k
          · subst hlast
            rw [if_pos h.last] at hr
            obtain rfl := Option.some.inj hr
            exact ⟨rfl, fun j hj => (hparents j hj).2⟩
          · have hne : c (i + 1) ≠ target :=
              hfar (h.distance (i + 1) hi).reaches (Nat.lt_of_le_of_ne hi hlast)
            have hnot : target ∉ ns := fun hmem =>
              hfar (hreach.step (by rw [hns]; exact List.mem_cons_of_mem _ hmem))
                (Nat.lt_of_le_of_ne hi hlast) rfl
            rw [if_neg hne] at hr
            obtain ⟨hlook, new, hqueue, hnewns, hmem, hparent⟩ := look_of_not_mem (c i) hnot
              ⟨c (i + 1) :: s.visited, Function.update s.parent (c (i + 1)) (some (c i)),
                after ++ [c (i + 1)]⟩
            rw [hlook, if_neg (by simp)] at hr
            have hstep : ∀ v, v = c (i + 1) ∨ v ∈ ns → ∃ m ≤ i + 1, Reaches succ {c 0} m v := by
              intro v hv
              refine ⟨i + 1, le_rfl, hreach.step ?_⟩
              rw [hns]
              rcases hv with rfl | hv
              · exact List.mem_cons_self
              · exact List.mem_cons_of_mem _ hv
            suffices hnext : Ahead succ c (i + 1) after new (look target (c i) ns
              ⟨c (i + 1) :: s.visited, Function.update s.parent (c (i + 1)) (some (c i)),
                after ++ [c (i + 1)]⟩).2 from ih (Nat.lt_of_le_of_ne hi hlast) hnext hr
            refine ⟨?_, ?_, ?_, ?_⟩
            · rw [hqueue]
              simp
            · intro v hv
              obtain ⟨m, hm, hreaches⟩ := hahead.near v (Or.inr hv)
              exact ⟨m, by omega, hreaches⟩
            · intro v hv
              rcases hv with hv | hv
              · rcases (hmem v).mp hv with hv | hv
                · rcases List.mem_cons.mp hv with rfl | hv
                  · exact hstep _ (Or.inl rfl)
                  · obtain ⟨m, hm, hreaches⟩ := hahead.near v (Or.inl hv)
                    exact ⟨m, by omega, hreaches⟩
                · exact hstep v (Or.inr hv)
              · exact hstep v (Or.inr (hnewns v hv))
            · intro j hj
              obtain ⟨hvisited, hp⟩ := hparents j hj
              exact ⟨(hmem _).mpr (Or.inl hvisited), (hparent _ hvisited).trans hp⟩

omit [DecidableEq α] in
theorem walk_part (hsteps : ∀ j < k, c (j + 1) ∈ succ (c j)) {n : ℕ} (hn : i + n ≤ k) :
    Walk succ n (c i) (c (i + n)) := by
  induction n with
  | zero => exact .nil _
  | succ n ih => exact .snoc (ih (by omega)) (hsteps (i + n) (by omega))

omit [DecidableEq α] in
theorem distance_part (hsteps : ∀ j < k, c (j + 1) ∈ succ (c j))
    (hk : IsDistance succ {c 0} k (c k)) {j : ℕ} (hj : j ≤ k) : IsDistance succ {c 0} j (c j) := by
  have hfront := walk_part hsteps (i := 0) (n := j) (by omega)
  rw [Nat.zero_add] at hfront
  refine ⟨⟨c 0, rfl, hfront⟩, fun m hm => ?_⟩
  obtain ⟨a, ha, hwalk⟩ := hm
  have hback := walk_part hsteps (i := j) (n := k - j) (by omega)
  rw [Nat.add_sub_cancel' hj] at hback
  have hle := hk.least (m + (k - j)) ⟨a, ha, hwalk.append hback⟩
  omega

theorem walkBack_first (h : StepsFirst succ c k target) {parent : α → Option α}
    (hparent : ∀ j < k, parent (c (j + 1)) = some (c j)) (missing : α) {j fuel : ℕ} (hj : j ≤ k)
    (hfuel : j < fuel) :
    walkBack parent missing (c 0) fuel (c j) = some ((List.range (j + 1)).map c).reverse := by
  induction j generalizing fuel with
  | zero =>
      obtain ⟨fuel, rfl⟩ := Nat.exists_eq_succ_of_ne_zero (Nat.ne_of_gt hfuel)
      rw [walkBack, if_pos rfl]
      rfl
  | succ j ih =>
      obtain ⟨fuel, rfl⟩ := Nat.exists_eq_succ_of_ne_zero (Nat.ne_of_gt (Nat.zero_lt_of_lt hfuel))
      have hne : c (j + 1) ≠ c 0 := by
        intro heq
        have hzero : IsDistance succ {c 0} 0 (c (j + 1)) := isDistance_zero.mpr heq
        have hone := (h.distance (j + 1) hj).unique hzero
        omega
      rw [walkBack, if_neg hne, hparent j hj, Option.getD_some,
        ih (Nat.le_of_succ_le hj) (Nat.lt_of_succ_lt_succ hfuel), List.range_succ (n := j + 1),
        List.map_append, List.reverse_append]
      rfl

/-- **A shortest path whose steps come first is the one that is found.** -/
theorem trace_first {all : List α} {fuel : ℕ} (missing : α) (hall : ∀ v, ∀ w ∈ succ v, w ∈ all)
    (hfuel : all.length < fuel) (hk : 0 < k) (hfirst : ∀ j < k, ∃ ns, succ (c j) = c (j + 1) :: ns)
    (hdistance : IsDistance succ {c 0} k (c k)) :
    trace succ missing fuel (c 0) (c k) = some (some ((List.range (k + 1)).map c)) := by
  have hsteps : ∀ j < k, c (j + 1) ∈ succ (c j) := by
    intro j hj
    obtain ⟨ns, hns⟩ := hfirst j hj
    rw [hns]
    exact List.mem_cons_self
  have h : StepsFirst succ c k (c k) := ⟨rfl, hfirst, fun j => distance_part hsteps hdistance⟩
  have hne : c k ∉ [c 0] := by
    intro hmem
    have hzero : IsDistance succ {c 0} 0 (c k) := isDistance_zero.mpr (List.mem_singleton.mp hmem)
    have hone := hdistance.unique hzero
    omega
  obtain ⟨⟨found, s⟩, hsearch⟩ := search_start hall hfuel (c 0) (c k)
  have hahead : Ahead succ c 0 [] [] ⟨[c 0], fun _ => none, [c 0]⟩ := by
    refine ⟨rfl, by simp, fun v hv => ⟨0, le_rfl, c 0, rfl, ?_⟩, by simp⟩
    rcases hv with hv | hv
    · rw [List.mem_singleton.mp hv]
      exact .nil _
    · exact absurd hv List.not_mem_nil
  obtain ⟨hfound, hparents⟩ := search_first h hk hahead hsearch
  obtain rfl : found = true := hfound
  obtain ⟨-, -, d, hd, hdist⟩ := (search_spec (level_start succ (c 0)) hne hsearch).1 rfl
  have heq := hdist.unique hdistance
  rw [trace, hsearch]
  show (walkBack s.parent missing (c 0) (fuel + 2) (c k)).map _ = _
  rw [walkBack_first h hparents missing le_rfl (by omega)]
  simp

end First

end BreadthFirst
