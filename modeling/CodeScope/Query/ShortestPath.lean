import CodeScope.Query.CallGraph

/-! # The shortest path between two functions

A breadth-first search over the callees, with a parent for each node that was seen, stops when the
target is seen and does not expand nodes at the depth bound. While it runs the depths are
`Labelled` with the queue pending, and the queue is sorted by depth with at most two depths in it.
So when the target is seen every node that is nearer has its depth already. The parents lead back to
the source one depth at a time. -/

namespace CodeScope.Query

open Walks

def kShortestPathMaxDepth : ℕ := 10

/-- The maps and the queue of the search. A depth that is not set reads as 0. -/
structure PathSearch where
  parent : ℕ → Option ℕ
  depthMap : ℕ → ℕ
  bfs : List ℕ

namespace PathSearch

def Seen (s : PathSearch) (n : ℕ) : Prop := (s.parent n).isSome

instance (s : PathSearch) (n : ℕ) : Decidable (s.Seen n) := inferInstanceAs (Decidable (_ = true))

/-- A neighbour of `cur` is seen for the first time. -/
def see (s : PathSearch) (cur curDepth nb : ℕ) : PathSearch where
  parent := Function.update s.parent nb (some cur)
  depthMap := Function.update s.depthMap nb (curDepth + 1)
  bfs := s.bfs

def push (s : PathSearch) (nb : ℕ) : PathSearch := { s with bfs := s.bfs ++ [nb] }

/-- The loop over the neighbours; it tells whether the target was seen. -/
def visit (target cur curDepth : ℕ) : List ℕ → PathSearch → Bool × PathSearch
  | [], s => (false, s)
  | nb :: neighbors, s =>
    if s.Seen nb then visit target cur curDepth neighbors s
    else if nb = target then (true, s.see cur curDepth nb)
    else visit target cur curDepth neighbors ((s.see cur curDepth nb).push nb)

/-- The nodes that the search can still see. -/
def unseen (G : CallGraph) (s : PathSearch) : ℕ := (G.nodes.filter fun n => ¬s.Seen n).card

theorem seen_see (s : PathSearch) (cur curDepth nb n : ℕ) :
    (s.see cur curDepth nb).Seen n ↔ n = nb ∨ s.Seen n := by
  by_cases h : n = nb
  · subst h
    simp [Seen, see]
  · simp [Seen, see, h]

theorem unseen_see {G : CallGraph} {s : PathSearch} {nb : ℕ} (hnb : nb ∈ G.nodes)
    (hnew : ¬s.Seen nb) (cur curDepth : ℕ) :
    (s.see cur curDepth nb).unseen G + 1 ≤ s.unseen G := by
  have hsub : (G.nodes.filter fun n => ¬(s.see cur curDepth nb).Seen n) ⊂
      G.nodes.filter fun n => ¬s.Seen n := by
    refine Finset.ssubset_iff_of_subset ?_ |>.mpr ⟨nb, ?_, ?_⟩
    · intro n hn
      rw [Finset.mem_filter, seen_see] at hn
      exact Finset.mem_filter.mpr ⟨hn.1, fun hseen => hn.2 (.inr hseen)⟩
    · exact Finset.mem_filter.mpr ⟨hnb, hnew⟩
    · rw [Finset.mem_filter, seen_see]
      exact fun hn => hn.2 (.inl rfl)
  exact Finset.card_lt_card hsub

/-- A node that is pushed is seen for the first time. -/
theorem unseen_visit {G : CallGraph} (target cur curDepth : ℕ) {neighbors : List ℕ}
    (hmem : ∀ nb ∈ neighbors, nb ∈ G.nodes) (s : PathSearch) :
    (visit target cur curDepth neighbors s).2.unseen G +
        (visit target cur curDepth neighbors s).2.bfs.length ≤
      s.unseen G + s.bfs.length := by
  induction neighbors generalizing s with
  | nil => exact Nat.le_refl _
  | cons nb neighbors ih =>
      have hrest := ih fun n hn => hmem n (List.mem_cons_of_mem nb hn)
      rw [visit]
      by_cases hseen : s.Seen nb
      · rw [if_pos hseen]
        exact hrest s
      · rw [if_neg hseen]
        have hsee := unseen_see (hmem nb List.mem_cons_self) hseen cur curDepth
        by_cases htarget : nb = target
        · rw [if_pos htarget]
          exact Nat.add_le_add_right (Nat.le_of_succ_le hsee) _
        · rw [if_neg htarget]
          refine Nat.le_trans (hrest _) ?_
          have hlength : ((s.see cur curDepth nb).push nb).bfs.length = s.bfs.length + 1 := by
            simp [push, see]
          have hunseen : ((s.see cur curDepth nb).push nb).unseen G =
              (s.see cur curDepth nb).unseen G := rfl
          omega

/-- The loop over the queue. -/
def search (G : CallGraph) (target : ℕ) (s : PathSearch) : Bool × PathSearch :=
  match _hbfs : s.bfs with
  | [] => (false, s)
  | cur :: rest =>
    if kShortestPathMaxDepth ≤ s.depthMap cur then search G target { s with bfs := rest }
    else
      let r := visit target cur (s.depthMap cur) (G.getCalleeIds cur) { s with bfs := rest }
      if r.1 then r else search G target r.2
termination_by s.unseen G + s.bfs.length
decreasing_by
  · rw [_hbfs]
    exact Nat.lt_succ_self _
  · rw [_hbfs]
    exact Nat.lt_succ_of_le (unseen_visit target cur (s.depthMap cur)
      (fun nb hnb => G.callee_mem hnb) { s with bfs := rest })

/-- The search with the source seen. -/
def start (source : ℕ) : PathSearch where
  parent := Function.update (fun _ => none) source (some source)
  depthMap := fun _ => 0
  bfs := [source]

end PathSearch

/-- The walk from the target along the parents, for `fuel` rounds at most: `none` while it runs,
    `some none` when a parent is missing. -/
def walkBack (parent : ℕ → Option ℕ) (source : ℕ) :
    ℕ → List ℕ → ℕ → Option (Option (List ℕ))
  | 0, _, _ => none
  | fuel + 1, path, node =>
    if node = source then some (some (path ++ [node]))
    else
      match parent node with
      | none => some none
      | some p => walkBack parent source fuel (path ++ [node]) p

/-- What a query for a path answers. -/
structure PathAnswer where
  path : List ℕ
  found : Bool
  hops : ℕ
  error : Option String
deriving DecidableEq

def notReady : PathAnswer where
  path := []
  found := false
  hops := 0
  error := some "graph not ready [module=query, method=findShortestPath]"

def noPath (sourceId : ℕ) : PathAnswer where
  path := [sourceId]
  found := false
  hops := 0
  error := none

/-- `QueryEngine::findShortestPath`, with `fuel` rounds for the walk back. -/
def findShortestPath (fuel : ℕ) (store : Option CallGraph) (sourceId targetId : ℕ) :
    Option PathAnswer :=
  match store with
  | none => some notReady
  | some G =>
    if sourceId = targetId then
      some { path := [sourceId], found := true, hops := 0, error := none }
    else
      let r := (PathSearch.start sourceId).search G targetId
      if r.1 then
        match walkBack r.2.parent sourceId fuel [] targetId with
        | none => none
        | some none => some (noPath sourceId)
        | some (some back) =>
          some { path := back.reverse, found := true, hops := back.length - 1, error := none }
      else some (noPath sourceId)

/-! ## What the search keeps -/

namespace PathSearch

/-- The search while `cur` is expanded: it still counts as queued. -/
def queueing (s : PathSearch) (cur : ℕ) : PathSearch := { s with bfs := cur :: s.bfs }

section

variable (G : CallGraph) (source : ℕ)

/-- The parents lead back to the source. -/
structure Tree (s : PathSearch) : Prop where
  source_parent : s.parent source = some source
  source_depth : s.depthMap source = 0
  step : ∀ {b a : ℕ}, s.parent b = some a → b ≠ source →
    s.Seen a ∧ b ∈ G.getCalleeIds a ∧ s.depthMap b = s.depthMap a + 1

/-- The queue is sorted by depth, with at most two depths, and what is not queued is expanded. -/
structure Inv (s : PathSearch) : Prop where
  tree : Tree G source s
  bounded : ∀ {b : ℕ}, s.Seen b → s.depthMap b ≤ kShortestPathMaxDepth
  queued : ∀ {b : ℕ}, b ∈ s.bfs → s.Seen b
  sorted : s.bfs.Pairwise fun a b => s.depthMap a ≤ s.depthMap b
  near : ∀ {b q : ℕ}, s.Seen b → q ∈ s.bfs → s.depthMap b ≤ s.depthMap q + 1
  closed : ∀ {a : ℕ}, s.Seen a → s.depthMap a < kShortestPathMaxDepth →
    a ∈ s.bfs ∨ ∀ b ∈ G.getCalleeIds a, s.Seen b ∧ s.depthMap b ≤ s.depthMap a + 1

/-- The target is seen, with its distance from the source. -/
structure Found (target : ℕ) (s : PathSearch) : Prop where
  tree : Tree G source s
  seen : s.Seen target
  distance : IsDistance G.getCalleeIds {source} (s.depthMap target) target
  bounded : s.depthMap target ≤ kShortestPathMaxDepth

end

/-- The depth of a node that was seen. -/
def label (s : PathSearch) (n : ℕ) : Option ℕ := if s.Seen n then some (s.depthMap n) else none

theorem label_eq_some {s : PathSearch} {n d : ℕ} :
    s.label n = some d ↔ s.Seen n ∧ s.depthMap n = d := by
  rw [label]
  split_ifs with h
  · simp [h]
  · simp [h]

section

variable {G : CallGraph} {source target : ℕ} {s : PathSearch}

theorem Tree.source_seen (h : Tree G source s) : s.Seen source := by
  rw [Seen, h.source_parent]
  rfl

theorem Tree.withQueue (h : Tree G source s) (bfs : List ℕ) :
    Tree G source { s with bfs := bfs } := ⟨h.source_parent, h.source_depth, h.step⟩

theorem Tree.walk (h : Tree G source s) {d b : ℕ} (hseen : s.Seen b) (hdepth : s.depthMap b = d) :
    Walk G.getCalleeIds d source b := by
  induction d generalizing b with
  | zero =>
      by_cases hb : b = source
      · exact hb ▸ .nil b
      · obtain ⟨a, ha⟩ := Option.isSome_iff_exists.mp hseen
        have hstep := (h.step ha hb).2.2
        omega
  | succ d ih =>
      have hb : b ≠ source := by
        rintro rfl
        have hzero := h.source_depth
        omega
      obtain ⟨a, ha⟩ := Option.isSome_iff_exists.mp hseen
      obtain ⟨hseen', hcallee, hstep⟩ := h.step ha hb
      exact .snoc (ih hseen' (by omega)) hcallee

theorem Inv.labelled (h : Inv G source s) :
    Labelled G.getCalleeIds {source} kShortestPathMaxDepth s.label
      fun a d => a ∈ s.bfs ∧ s.depthMap a = d := by
  constructor
  · rintro b rfl
    exact label_eq_some.mpr ⟨h.tree.source_seen, h.tree.source_depth⟩
  · intro b d hlabel
    obtain ⟨hseen, hdepth⟩ := label_eq_some.mp hlabel
    exact ⟨d, Nat.le_refl d, source, rfl, h.tree.walk hseen hdepth⟩
  · intro b d hlabel
    obtain ⟨hseen, rfl⟩ := label_eq_some.mp hlabel
    exact h.bounded hseen
  · intro a d hlabel hd
    obtain ⟨hseen, rfl⟩ := label_eq_some.mp hlabel
    rcases h.closed hseen hd with hqueued | hclosed
    · exact .inl ⟨hqueued, rfl⟩
    · refine .inr fun b hb => ?_
      obtain ⟨hseen', hdepth⟩ := hclosed b hb
      exact ⟨s.depthMap b, hdepth, label_eq_some.mpr ⟨hseen', rfl⟩⟩

/-! ## Seeing a node -/

section

variable {cur curDepth nb n : ℕ}

theorem see_of_ne (s : PathSearch) (cur curDepth : ℕ) (h : n ≠ nb) :
    (s.see cur curDepth nb).parent n = s.parent n ∧
      (s.see cur curDepth nb).depthMap n = s.depthMap n :=
  ⟨Function.update_of_ne h _ _, Function.update_of_ne h _ _⟩

theorem see_of_seen (cur curDepth : ℕ) (hnew : ¬s.Seen nb) (h : s.Seen n) :
    (s.see cur curDepth nb).parent n = s.parent n ∧
      (s.see cur curDepth nb).depthMap n = s.depthMap n := by
  refine see_of_ne s cur curDepth ?_
  rintro rfl
  exact hnew h

theorem see_self (s : PathSearch) (cur curDepth nb : ℕ) :
    (s.see cur curDepth nb).parent nb = some cur ∧
      (s.see cur curDepth nb).depthMap nb = curDepth + 1 :=
  ⟨Function.update_self _ _ _, Function.update_self _ _ _⟩

theorem Tree.see (h : Tree G source s) (hcur : s.Seen cur) (hnew : ¬s.Seen nb)
    (hnb : nb ∈ G.getCalleeIds cur) : Tree G source (s.see cur (s.depthMap cur) nb) := by
  have hsource := see_of_seen cur (s.depthMap cur) hnew h.source_seen
  have hcur' := see_of_seen cur (s.depthMap cur) hnew hcur
  refine ⟨hsource.1.trans h.source_parent, hsource.2.trans h.source_depth, ?_⟩
  intro b a hparent hb
  by_cases hbn : b = nb
  · subst hbn
    obtain ⟨hself, hdepth⟩ := see_self s cur (s.depthMap cur) b
    obtain rfl := Option.some.inj (hself.symm.trans hparent)
    refine ⟨(seen_see ..).mpr (.inr hcur), hnb, ?_⟩
    rw [hdepth, hcur'.2]
  · obtain ⟨hsame, hdepth⟩ := see_of_ne s cur (s.depthMap cur) hbn
    rw [hsame] at hparent
    obtain ⟨hseen, hcallee, hstep⟩ := h.step hparent hb
    refine ⟨(seen_see ..).mpr (.inr hseen), hcallee, ?_⟩
    rw [hdepth, (see_of_seen cur (s.depthMap cur) hnew hseen).2, hstep]

/-- A neighbour that was not seen before is farther than everything that is not deeper than the
    node that is expanded. -/
theorem Inv.distance (h : Inv G source (s.queueing cur))
    (hdepth : s.depthMap cur < kShortestPathMaxDepth) (hnew : ¬s.Seen nb)
    (hnb : nb ∈ G.getCalleeIds cur) :
    IsDistance G.getCalleeIds {source} (s.depthMap cur + 1) nb := by
  have hcur : s.Seen cur := h.queued List.mem_cons_self
  refine ⟨⟨source, rfl, .snoc (h.tree.walk hcur rfl) hnb⟩, fun m hm => ?_⟩
  by_contra hlt
  have hpending : ∀ a d, (a ∈ (s.queueing cur).bfs ∧ (s.queueing cur).depthMap a = d) →
      s.depthMap cur ≤ d := by
    rintro a d ⟨ha, rfl⟩
    rcases List.mem_cons.mp ha with rfl | ha
    · exact Nat.le_refl _
    · exact (List.pairwise_cons.mp h.sorted).1 a ha
  obtain ⟨d, -, hlabel⟩ := h.labelled.label_of_reaches hpending (Nat.le_of_lt hdepth) hm (by omega)
  exact hnew (label_eq_some.mp hlabel).1

theorem Inv.see (h : Inv G source (s.queueing cur))
    (hdepth : s.depthMap cur < kShortestPathMaxDepth) (hnew : ¬s.Seen nb)
    (hnb : nb ∈ G.getCalleeIds cur) :
    Inv G source (((s.see cur (s.depthMap cur) nb).push nb).queueing cur) := by
  have hcur : s.Seen cur := h.queued List.mem_cons_self
  have hold {n : ℕ} (hn : s.Seen n) : (s.see cur (s.depthMap cur) nb).depthMap n = s.depthMap n :=
    (see_of_seen cur (s.depthMap cur) hnew hn).2
  have hself := (see_self s cur (s.depthMap cur) nb).2
  have hsee {n : ℕ} : (s.see cur (s.depthMap cur) nb).Seen n ↔ n = nb ∨ s.Seen n :=
    seen_see s cur (s.depthMap cur) nb n
  have hqueue : (((s.see cur (s.depthMap cur) nb).push nb).queueing cur).bfs =
      (s.queueing cur).bfs ++ [nb] := rfl
  have hlast {q : ℕ} (hq : q ∈ (s.queueing cur).bfs) : s.depthMap q ≤ s.depthMap cur + 1 :=
    h.near (h.queued hq) List.mem_cons_self
  have hfirst {q : ℕ} (hq : q ∈ (s.queueing cur).bfs) : s.depthMap cur ≤ s.depthMap q := by
    rcases List.mem_cons.mp hq with rfl | hq
    · exact Nat.le_refl _
    · exact (List.pairwise_cons.mp h.sorted).1 q hq
  refine ⟨((h.tree.withQueue s.bfs).see hcur hnew hnb).withQueue _, ?_, ?_, ?_, ?_, ?_⟩
  · intro b hb
    rcases hsee.mp hb with rfl | hb
    · exact hself.trans_le hdepth
    · exact (hold hb).trans_le (h.bounded hb)
  · intro b hb
    rw [hqueue] at hb
    rcases List.mem_append.mp hb with hb | hb
    · exact hsee.mpr (.inr (h.queued hb))
    · exact hsee.mpr (.inl (List.mem_singleton.mp hb))
  · rw [hqueue, List.pairwise_append]
    refine ⟨?_, List.pairwise_singleton _ _, ?_⟩
    · refine h.sorted.imp_of_mem fun {a b} ha hb hle => ?_
      exact (hold (h.queued ha)).trans_le (hle.trans (hold (h.queued hb)).ge)
    · intro a ha b hb
      rw [List.mem_singleton.mp hb]
      exact (hold (h.queued ha)).trans_le ((hlast ha).trans hself.ge)
  · intro b q hb hq
    have hq' : s.depthMap cur ≤ (s.see cur (s.depthMap cur) nb).depthMap q := by
      rw [hqueue] at hq
      rcases List.mem_append.mp hq with hq | hq
      · exact (hfirst hq).trans (hold (h.queued hq)).ge
      · rw [List.mem_singleton.mp hq, hself]
        exact Nat.le_succ _
    have hb' : (s.see cur (s.depthMap cur) nb).depthMap b ≤ s.depthMap cur + 1 := by
      rcases hsee.mp hb with rfl | hb
      · exact hself.le
      · exact (hold hb).trans_le (h.near hb List.mem_cons_self)
    exact hb'.trans (Nat.succ_le_succ hq')
  · intro a ha hlt
    rw [hqueue]
    rcases hsee.mp ha with rfl | ha
    · exact .inl (List.mem_append_right _ (List.mem_singleton_self _))
    · rcases h.closed ha ((hold ha).ge.trans_lt hlt) with hqueued | hclosed
      · exact .inl (List.mem_append_left _ hqueued)
      · refine .inr fun b hb => ?_
        obtain ⟨hseen, hle⟩ := hclosed b hb
        refine ⟨hsee.mpr (.inr hseen), ?_⟩
        exact (hold hseen).trans_le (hle.trans (Nat.succ_le_succ (hold ha).ge))

end

end

end PathSearch

/-! ## One expansion, and all of them -/

namespace PathSearch

section

variable {G : CallGraph} {source target : ℕ}

/-- What the loop over the neighbours leaves when the target is not among them. -/
structure Visited (G : CallGraph) (source cur : ℕ) (neighbors : List ℕ) (target : ℕ)
    (s s' : PathSearch) : Prop where
  inv : Inv G source (s'.queueing cur)
  depth : s'.depthMap cur = s.depthMap cur
  seen : ∀ {n : ℕ}, s.Seen n → s'.Seen n
  neighbors_seen : ∀ n ∈ neighbors, s'.Seen n
  target_unseen : ¬s'.Seen target

theorem visit_spec {cur : ℕ} {neighbors : List ℕ} (hmem : ∀ n ∈ neighbors, n ∈ G.getCalleeIds cur)
    {s : PathSearch} (h : Inv G source (s.queueing cur))
    (hdepth : s.depthMap cur < kShortestPathMaxDepth) (htarget : ¬s.Seen target) :
    ((visit target cur (s.depthMap cur) neighbors s).1 = true →
        Found G source target (visit target cur (s.depthMap cur) neighbors s).2) ∧
      ((visit target cur (s.depthMap cur) neighbors s).1 = false →
        Visited G source cur neighbors target s
          (visit target cur (s.depthMap cur) neighbors s).2) := by
  induction neighbors generalizing s with
  | nil => exact ⟨fun hf => absurd hf (by simp [visit]), fun _ => ⟨h, rfl, id, by simp, htarget⟩⟩
  | cons nb neighbors ih =>
      have hnb := hmem nb List.mem_cons_self
      have hrest : ∀ n ∈ neighbors, n ∈ G.getCalleeIds cur :=
        fun n hn => hmem n (List.mem_cons_of_mem nb hn)
      have hcur : s.Seen cur := h.queued List.mem_cons_self
      rw [visit]
      by_cases hseen : s.Seen nb
      · rw [if_pos hseen]
        obtain ⟨hfound, hvisited⟩ := ih hrest h hdepth htarget
        refine ⟨hfound, fun hf => ?_⟩
        have hv := hvisited hf
        refine ⟨hv.inv, hv.depth, hv.seen, ?_, hv.target_unseen⟩
        intro n hn
        rcases List.mem_cons.mp hn with rfl | hn
        · exact hv.seen hseen
        · exact hv.neighbors_seen n hn
      · rw [if_neg hseen]
        have hself := (see_self s cur (s.depthMap cur) nb).2
        by_cases heq : nb = target
        · subst heq
          rw [if_pos rfl]
          refine ⟨fun _ => ?_, fun hf => absurd hf (by simp)⟩
          refine ⟨(h.tree.withQueue s.bfs).see hcur hseen hnb, (seen_see ..).mpr (.inl rfl), ?_, ?_⟩
          · rw [hself]
            exact h.distance hdepth hseen hnb
          · exact hself.trans_le hdepth
        · rw [if_neg heq]
          have hold : ((s.see cur (s.depthMap cur) nb).push nb).depthMap cur = s.depthMap cur :=
            (see_of_seen cur (s.depthMap cur) hseen hcur).2
          have hunseen : ¬((s.see cur (s.depthMap cur) nb).push nb).Seen target := by
            intro hs
            rcases (seen_see s cur (s.depthMap cur) nb target).mp hs with rfl | hs
            · exact heq rfl
            · exact htarget hs
          have hstep := ih hrest (h.see hdepth hseen hnb) (hold.trans_lt hdepth) hunseen
          rw [hold] at hstep
          refine ⟨hstep.1, fun hf => ?_⟩
          have hv := hstep.2 hf
          have hmono {n : ℕ} (hn : n = nb ∨ s.Seen n) :=
            hv.seen ((seen_see s cur (s.depthMap cur) nb n).mpr hn)
          refine ⟨hv.inv, hv.depth.trans hold, fun hn => hmono (.inr hn), ?_, hv.target_unseen⟩
          intro n hn
          rcases List.mem_cons.mp hn with rfl | hn
          · exact hmono (.inl rfl)
          · exact hv.neighbors_seen n hn

theorem Inv.dequeue {s : PathSearch} {cur : ℕ} (h : Inv G source (s.queueing cur))
    (hdone : s.depthMap cur < kShortestPathMaxDepth → ∀ n ∈ G.getCalleeIds cur, s.Seen n) :
    Inv G source s := by
  refine ⟨h.tree.withQueue s.bfs, h.bounded, fun hb => h.queued (List.mem_cons_of_mem cur hb),
    (List.pairwise_cons.mp h.sorted).2, fun hb hq => h.near hb (List.mem_cons_of_mem cur hq), ?_⟩
  intro a ha hlt
  rcases h.closed ha hlt with hqueued | hclosed
  · rcases List.mem_cons.mp hqueued with rfl | hqueued
    · exact .inr fun b hb => ⟨hdone hlt b hb, h.near (hdone hlt b hb) List.mem_cons_self⟩
    · exact .inl hqueued
  · exact .inr hclosed

theorem search_spec {s : PathSearch} (h : Inv G source s) (htarget : ¬s.Seen target) :
    ((s.search G target).1 = true → Found G source target (s.search G target).2) ∧
      ((s.search G target).1 = false →
        ¬∃ n ≤ kShortestPathMaxDepth, Walk G.getCalleeIds n source target) := by
  fun_induction search G target s with
  | case1 s hbfs =>
      refine ⟨fun hf => absurd hf (by simp), fun _ => ?_⟩
      rintro ⟨n, hn, hwalk⟩
      have hpending : ∀ a d, (a ∈ s.bfs ∧ s.depthMap a = d) → kShortestPathMaxDepth ≤ d := by
        rintro a d ⟨ha, -⟩
        rw [hbfs] at ha
        exact absurd ha List.not_mem_nil
      obtain ⟨d, -, hlabel⟩ := h.labelled.label_of_reaches hpending (Nat.le_refl _)
        ⟨source, rfl, hwalk⟩ hn
      exact htarget (label_eq_some.mp hlabel).1
  | case2 s cur rest hbfs hdepth ih =>
      have hcur : Inv G source (queueing { s with bfs := rest } cur) := by
        rw [queueing, ← hbfs]
        exact h
      exact ih (hcur.dequeue fun hlt => absurd hlt (Nat.not_lt_of_le hdepth)) htarget
  | case3 s cur rest hbfs hdepth r hr =>
      have hcur : Inv G source (queueing { s with bfs := rest } cur) := by
        rw [queueing, ← hbfs]
        exact h
      have hspec := visit_spec (fun n hn => hn) hcur (Nat.lt_of_not_le hdepth) htarget
      exact ⟨fun _ => hspec.1 hr, fun hf => absurd (hr.symm.trans hf) (by simp)⟩
  | case4 s cur rest hbfs hdepth r hr ih =>
      have hcur : Inv G source (queueing { s with bfs := rest } cur) := by
        rw [queueing, ← hbfs]
        exact h
      have hv := (visit_spec (fun n hn => hn) hcur (Nat.lt_of_not_le hdepth) htarget).2
        (Bool.eq_false_of_not_eq_true hr)
      exact ih (hv.inv.dequeue fun _ => hv.neighbors_seen) hv.target_unseen

theorem start_inv (G : CallGraph) (source : ℕ) : Inv G source (start source) := by
  have hseen {n : ℕ} (hn : (start source).Seen n) : n = source := by
    by_contra hne
    simp [Seen, start, hne] at hn
  have hsource : (start source).parent source = some source := by simp [start]
  refine ⟨⟨hsource, rfl, ?_⟩, ?_, ?_, List.pairwise_singleton _ _, ?_, ?_⟩
  · intro b a hparent hb
    exact absurd (hseen (Option.isSome_of_mem hparent)) hb
  · intro b _
    exact Nat.zero_le _
  · intro b hb
    rw [List.mem_singleton.mp hb, Seen, hsource]
    rfl
  · intro b q _ _
    exact Nat.zero_le _
  · intro a ha _
    exact .inl (List.mem_singleton.mpr (hseen ha))

end

end PathSearch

/-! ## The walk back -/

/-- The walk back ends after one round for each depth, at the source. -/
theorem walkBack_spec {G : CallGraph} {source : ℕ} {s : PathSearch}
    (h : PathSearch.Tree G source s) {node d : ℕ} (hseen : s.Seen node)
    (hd : s.depthMap node = d) :
    ∃ back : List ℕ, back.length = d + 1 ∧ IsPath G.getCalleeIds source node back.reverse ∧
      ∀ fuel path, d < fuel →
        walkBack s.parent source fuel path node = some (some (path ++ back)) := by
  induction d generalizing node with
  | zero =>
      obtain rfl := walk_zero_iff.mp (h.walk hseen hd)
      refine ⟨[source], rfl, isPath_singleton source, fun fuel path hfuel => ?_⟩
      obtain ⟨fuel, rfl⟩ := Nat.exists_eq_succ_of_ne_zero (Nat.ne_of_gt hfuel)
      rw [walkBack, if_pos rfl]
  | succ d ih =>
      have hnode : node ≠ source := by
        rintro rfl
        have hzero := h.source_depth
        omega
      obtain ⟨p, hp⟩ := Option.isSome_iff_exists.mp hseen
      obtain ⟨hseen', hcallee, hdepth⟩ := h.step hp hnode
      obtain ⟨back, hlength, hpath, hback⟩ := ih hseen' (by omega)
      refine ⟨node :: back, ?_, ?_, fun fuel path hfuel => ?_⟩
      · rw [List.length_cons, hlength]
      · rw [List.reverse_cons]
        exact hpath.snoc hcallee
      · obtain ⟨fuel, rfl⟩ := Nat.exists_eq_succ_of_ne_zero (Nat.ne_of_gt (Nat.zero_lt_of_lt hfuel))
        rw [walkBack, if_neg hnode]
        simp only [hp]
        rw [hback fuel (path ++ [node]) (Nat.lt_of_succ_lt_succ hfuel), List.append_assoc]
        rfl

/-! ## The answer -/

/-- The answer gives a shortest path between two functions. -/
structure IsShortestPath (G : CallGraph) (sourceId targetId : ℕ) (r : PathAnswer) : Prop where
  path : IsPath G.getCalleeIds sourceId targetId r.path
  hops : r.hops + 1 = r.path.length
  shortest : ∀ other, IsPath G.getCalleeIds sourceId targetId other →
    r.path.length ≤ other.length

theorem isShortestPath_self (G : CallGraph) (id : ℕ) :
    IsShortestPath G id id { path := [id], found := true, hops := 0, error := none } :=
  ⟨isPath_singleton id, rfl, fun _ h => List.length_pos_of_ne_nil h.ne_nil⟩

/-- The path that the parents of a found target give. -/
theorem isShortestPath_found {G : CallGraph} {sourceId targetId : ℕ} {s : PathSearch}
    (h : PathSearch.Found G sourceId targetId s) {back : List ℕ}
    (hlength : back.length = s.depthMap targetId + 1)
    (hpath : IsPath G.getCalleeIds sourceId targetId back.reverse) :
    IsShortestPath G sourceId targetId
      { path := back.reverse, found := true, hops := back.length - 1, error := none } := by
  refine ⟨hpath, ?_, ?_⟩
  · dsimp only
    rw [List.length_reverse]
    omega
  · intro other hother
    have hleast := h.distance.least (other.length - 1) ⟨sourceId, rfl, hother.walk⟩
    have hne := List.length_pos_of_ne_nil hother.ne_nil
    rw [List.length_reverse]
    omega

/-- The search ends with a shortest path, or with none when there is none within the bound. -/
theorem findShortestPath_cases (G : CallGraph) (sourceId targetId : ℕ) :
    ∃ r, (∀ fuel, kShortestPathMaxDepth < fuel →
        findShortestPath fuel (some G) sourceId targetId = some r) ∧
      (r.found = true ∧ (∃ n ≤ kShortestPathMaxDepth, Walk G.getCalleeIds n sourceId targetId) ∧
          IsShortestPath G sourceId targetId r ∨
        r.found = false ∧
          ¬ ∃ n ≤ kShortestPathMaxDepth, Walk G.getCalleeIds n sourceId targetId) := by
  by_cases hsame : sourceId = targetId
  · subst hsame
    refine ⟨_, fun fuel _ => ?_, .inl ⟨rfl, ⟨0, Nat.zero_le _, .nil sourceId⟩,
      isShortestPath_self G sourceId⟩⟩
    simp only [findShortestPath, if_true]
  · have hunseen : ¬(PathSearch.start sourceId).Seen targetId := by
      have hnone : (PathSearch.start sourceId).parent targetId = none := by
        simp [PathSearch.start, Ne.symm hsame]
      rw [PathSearch.Seen, hnone]
      exact Bool.false_ne_true
    obtain ⟨hfound, hmissed⟩ := PathSearch.search_spec (PathSearch.start_inv G sourceId) hunseen
    simp only [findShortestPath, if_neg hsame]
    generalize (PathSearch.start sourceId).search G targetId = result at hfound hmissed
    obtain ⟨found, s⟩ := result
    cases found with
    | false => exact ⟨noPath sourceId, fun fuel _ => rfl, .inr ⟨rfl, hmissed rfl⟩⟩
    | true =>
        have h := hfound rfl
        obtain ⟨back, hlength, hpath, hback⟩ := walkBack_spec h.tree h.seen rfl
        refine ⟨_, fun fuel hfuel => ?_, .inl ⟨rfl, ⟨_, h.bounded, h.tree.walk h.seen rfl⟩,
          isShortestPath_found h hlength hpath⟩⟩
        simp only [if_true, hback fuel [] (Nat.lt_of_le_of_lt h.bounded hfuel), List.nil_append]

/-- **A path is found exactly when the target is within the depth bound, and it is a shortest
    one.** The walk back needs no more rounds than the path has nodes. -/
theorem findShortestPath_spec (G : CallGraph) (sourceId targetId : ℕ) :
    ∃ r, (∀ fuel, kShortestPathMaxDepth < fuel →
        findShortestPath fuel (some G) sourceId targetId = some r) ∧
      (r.found = true ↔
        ∃ n ≤ kShortestPathMaxDepth, Walk G.getCalleeIds n sourceId targetId) ∧
      (r.found = true → IsShortestPath G sourceId targetId r) := by
  obtain ⟨r, hr, ⟨hfound, hwalk, hpath⟩ | ⟨hmissed, hnone⟩⟩ :=
    findShortestPath_cases G sourceId targetId
  · exact ⟨r, hr, iff_of_true hfound hwalk, fun _ => hpath⟩
  · refine ⟨r, hr, iff_of_false ?_ hnone, fun hfound => ?_⟩
    · rw [hmissed]
      exact Bool.false_ne_true
    · exact absurd (hmissed.symm.trans hfound) Bool.false_ne_true

/-! ## On a store -/

open CodeScope.Store (Call GraphDb Publishes Represents Fits targets sources republish smallDb
  buildCSR_succeeds noFaults_checked)

/-- **After any history of graph builds the answer is about the published calls**: a path is found
    exactly when they lead to the target within the depth bound, and it is a shortest one. -/
theorem shortestPath_of_publishes {db : GraphDb} {calls : List Call} (h : Publishes db calls)
    (hfits : Fits calls) (sourceId targetId : ℕ) :
    ∃ r, (∀ fuel, kShortestPathMaxDepth < fuel →
        findShortestPath fuel (some (.ofStore h.represents hfits)) sourceId targetId = some r) ∧
      (r.found = true ↔
        ∃ n ≤ kShortestPathMaxDepth, Walk (targets calls) n sourceId targetId) ∧
      (r.found = true → IsPath (targets calls) sourceId targetId r.path ∧
        r.hops + 1 = r.path.length ∧ ∀ other, IsPath (targets calls) sourceId targetId other →
          r.path.length ≤ other.length) := by
  -- a step of the graph is a published call, so walks and paths are those of the calls
  have hstep : ∀ a b, b ∈ (CallGraph.ofStore h.represents hfits).getCalleeIds a ↔
      b ∈ targets calls a :=
    fun a b => (CallGraph.mem_ofStore h.represents hfits).trans mem_targets.symm
  obtain ⟨r, hr, ⟨hfound, hwalk, hpath⟩ | ⟨hmissed, hnone⟩⟩ :=
    findShortestPath_cases (.ofStore h.represents hfits) sourceId targetId
  · obtain ⟨n, hn, hwalk⟩ := hwalk
    refine ⟨r, hr, iff_of_true hfound ⟨n, hn, hwalk.congr fun a b => (hstep a b).mp⟩, ?_⟩
    intro _
    refine ⟨hpath.path.congr fun a b => (hstep a b).mp, hpath.hops, ?_⟩
    intro other hother
    exact hpath.shortest other (hother.congr fun a b => (hstep a b).mpr)
  · have hfalse : ¬r.found = true := by
      rw [hmissed]
      exact Bool.false_ne_true
    refine ⟨r, hr, iff_of_false hfalse ?_, fun hfound => absurd hfound hfalse⟩
    rintro ⟨n, hn, hwalk⟩
    exact hnone ⟨n, hn, hwalk.congr fun a b => (hstep a b).mpr⟩

theorem shortestPath_of_publishes_smallDb : ∃ db',
    ∃ h : Represents db' (republish [] smallDb 1), ∃ hfits : Fits (republish [] smallDb 1), ∃ r,
      findShortestPath (kShortestPathMaxDepth + 1) (some (.ofStore h hfits)) 5 7 = some r ∧
        r.found = true := by
  obtain ⟨db', hbuild⟩ := buildCSR_succeeds smallDb rfl rfl 1
  have hpublishes := Publishes.build (.empty smallDb rfl rfl) noFaults_checked hbuild
  have hfits : Fits (republish [] smallDb 1) := by
    intro n
    have hcalls : (republish [] smallDb 1).length ≤ Store.kMaxGroup := by decide
    unfold targets sources
    rw [List.length_map, List.length_map]
    exact ⟨(List.length_filter_le _ _).trans hcalls, (List.length_filter_le _ _).trans hcalls⟩
  obtain ⟨r, hr, hfound, -⟩ := shortestPath_of_publishes hpublishes hfits 5 7
  exact ⟨db', hpublishes.represents, hfits, r, hr _ (Nat.lt_succ_self _),
    hfound.mpr ⟨1, by decide, .one (by decide)⟩⟩

end CodeScope.Query
