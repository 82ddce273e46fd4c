import Mathlib

/-! # Components by search

An undirected graph is given by the keys of a map and the neighbours of each key. A search from a
node puts every node that it has not seen into a queue; searches from all keys, one after the other,
find the components. Between two searches the nodes seen so far have no neighbours outside. -/

namespace Components

variable {α : Type} [DecidableEq α]

/-- A map from nodes to neighbours. Whoever is a neighbour has an entry, and the other one among its
    neighbours. -/
structure Adjacency (α : Type) where
  keys : List α
  get : α → List α
  closed : ∀ {a b}, b ∈ get a → b ∈ keys
  symm : ∀ {a b}, b ∈ get a → a ∈ get b

/-- Its graph, in which no node is its own neighbour. -/
def Adjacency.graph (adj : Adjacency α) : SimpleGraph α where
  Adj a b := a ≠ b ∧ b ∈ adj.get a
  symm := ⟨fun _ _ h => ⟨h.1.symm, adj.symm h.2⟩⟩

/-! ## The search -/

structure Frontier (α : Type) where
  visited : Finset α
  queue : List α
  comp : List α

/-- A neighbour that has not been seen is seen now, and put into the queue. -/
def visit (s : Frontier α) (b : α) : Frontier α :=
  if b ∈ s.visited then s
  else { s with visited := insert b s.visited, queue := s.queue ++ [b] }

/-- The front node of the queue. -/
def expand (adj : Adjacency α) (s : Frontier α) (a : α) (rest : List α) : Frontier α :=
  (adj.get a).foldl visit { s with queue := rest, comp := s.comp ++ [a] }

/-- **What the loop over the neighbours does**: those not seen before are appended to the queue. -/
theorem foldl_visit (l : List α) (s : Frontier α) :
    ∃ new, (l.foldl visit s).queue = s.queue ++ new ∧ (l.foldl visit s).comp = s.comp ∧
      (l.foldl visit s).visited = s.visited ∪ l.toFinset ∧ new.Nodup ∧
      ∀ x, x ∈ new ↔ x ∈ l ∧ x ∉ s.visited := by
  induction l generalizing s with
  | nil => exact ⟨[], by simp⟩
  | cons b l ih =>
      obtain ⟨new, hqueue, hcomp, hvisited, hnodup, hnew⟩ := ih (visit s b)
      rw [List.foldl_cons, hqueue, hcomp, hvisited]
      by_cases hb : b ∈ s.visited
      · have hvisit : visit s b = s := if_pos hb
        rw [hvisit] at hnew ⊢
        refine ⟨new, rfl, rfl, ?_, hnodup, fun x => ?_⟩
        · ext x
          simp only [Finset.mem_union, List.mem_toFinset, List.mem_cons]
          constructor
          · rintro (hx | hx)
            · exact Or.inl hx
            · exact Or.inr (Or.inr hx)
          · rintro (hx | rfl | hx)
            · exact Or.inl hx
            · exact Or.inl hb
            · exact Or.inr hx
        · rw [hnew, List.mem_cons]
          constructor
          · exact fun ⟨hx, hout⟩ => ⟨Or.inr hx, hout⟩
          · rintro ⟨rfl | hx, hout⟩
            · exact absurd hb hout
            · exact ⟨hx, hout⟩
      · have hvisit : visit s b =
            { s with visited := insert b s.visited, queue := s.queue ++ [b] } := if_neg hb
        rw [hvisit] at hnew ⊢
        refine ⟨b :: new, by simp, rfl, ?_, ?_, fun x => ?_⟩
        · ext x
          simp only [Finset.mem_union, Finset.mem_insert, List.mem_toFinset, List.mem_cons]
          tauto
        · exact List.nodup_cons.mpr
            ⟨fun h => ((hnew b).mp h).2 (Finset.mem_insert_self b _), hnodup⟩
        · rw [List.mem_cons, hnew, List.mem_cons, Finset.mem_insert]
          by_cases hx : x = b
          · subst hx
            simp [hb]
          · simp [hx]

/-- How much a search still has to do: a node that is not seen has to be put into the queue and
    taken out. -/
def Frontier.measure (adj : Adjacency α) (s : Frontier α) : ℕ :=
  2 * (adj.keys.toFinset \ s.visited).card + s.queue.length

variable {s : Frontier α} {adj : Adjacency α} {start : α} {old : Finset α}

theorem measure_expand (adj : Adjacency α) {a : α} {rest : List α} (hqueue : s.queue = a :: rest) :
    (expand adj s a rest).measure adj < s.measure adj := by
  obtain ⟨new, hqueue', _, hvisited, hnodup, hnew⟩ :=
    foldl_visit (adj.get a) { s with queue := rest, comp := s.comp ++ [a] }
  have hsub : new.toFinset ⊆ adj.keys.toFinset \ s.visited := by
    intro x hx
    obtain ⟨hx, hout⟩ := (hnew x).mp (List.mem_toFinset.mp hx)
    exact Finset.mem_sdiff.mpr ⟨List.mem_toFinset.mpr (adj.closed hx), hout⟩
  have hrest : adj.keys.toFinset \ (s.visited ∪ (adj.get a).toFinset) ⊆
      (adj.keys.toFinset \ s.visited) \ new.toFinset := by
    intro x hx
    simp only [Finset.mem_sdiff, Finset.mem_union, List.mem_toFinset, not_or] at hx ⊢
    exact ⟨⟨hx.1, hx.2.1⟩, fun h => hx.2.2 ((hnew x).mp h).1⟩
  have hcard := Finset.card_le_card hrest
  have hle := Finset.card_le_card hsub
  rw [Finset.card_sdiff_of_subset hsub] at hcard
  rw [List.toFinset_card_of_nodup hnodup] at hcard hle
  unfold expand Frontier.measure
  rw [hqueue', hvisited, hqueue, List.length_append, List.length_cons]
  dsimp only
  omega

/-- The search until the queue is empty. It ends since every step takes a node out of the queue that
    never gets in again. -/
def search (adj : Adjacency α) (s : Frontier α) : Frontier α :=
  match _h : s.queue with
  | [] => s
  | a :: rest => search adj (expand adj s a rest)
termination_by s.measure adj
decreasing_by exact measure_expand adj _h

/-- What a search from `start` keeps, `old` being what was seen before it: the new nodes are those
    of the component found so far and of the queue, once each, and the neighbours of the former have
    been seen. -/
structure Searching (adj : Adjacency α) (start : α) (old : Finset α) (s : Frontier α) : Prop where
  nodup : (s.comp ++ s.queue).Nodup
  visited : ∀ x, x ∈ s.visited ↔ x ∈ old ∨ x ∈ s.comp ++ s.queue
  fresh : ∀ x ∈ s.comp ++ s.queue, x ∉ old
  reached : ∀ x ∈ s.comp ++ s.queue, adj.graph.Reachable start x
  done : ∀ x ∈ s.comp, ∀ y ∈ adj.get x, y ∈ s.visited
  started : start ∈ s.comp ++ s.queue

theorem searching_start (h : start ∉ old) :
    Searching adj start old ⟨insert start old, [start], []⟩ where
  nodup := List.nodup_singleton start
  visited x := by simp [or_comm]
  fresh x hx := by rwa [List.mem_singleton.mp hx]
  reached x hx := by rw [List.mem_singleton.mp hx]
  done x hx := absurd hx List.not_mem_nil
  started := List.mem_singleton_self start

theorem reachable_of_mem {x y : α} (hx : adj.graph.Reachable start x) (hy : y ∈ adj.get x) :
    adj.graph.Reachable start y := by
  by_cases heq : x = y
  · exact heq ▸ hx
  · exact hx.trans (SimpleGraph.Adj.reachable (show adj.graph.Adj x y from ⟨heq, hy⟩))

theorem Searching.expand (h : Searching adj start old s) {a : α} {rest : List α}
    (hqueue : s.queue = a :: rest) : Searching adj start old (expand adj s a rest) := by
  obtain ⟨new, hqueue', hcomp, hvisited, hnodup, hnew⟩ :=
    foldl_visit (adj.get a) { s with queue := rest, comp := s.comp ++ [a] }
  dsimp only at hqueue' hcomp hvisited hnew
  -- taking the front node over changes the order of the nodes only
  have hlist : (s.comp ++ [a]) ++ (rest ++ new) = (s.comp ++ s.queue) ++ new := by
    rw [hqueue]
    simp
  have ha : a ∈ s.comp ++ s.queue := by simp [hqueue]
  unfold Components.expand
  refine ⟨?_, fun x => ?_, fun x hx => ?_, fun x hx => ?_, fun x hx y hy => ?_, ?_⟩
  · rw [hcomp, hqueue', hlist]
    refine List.nodup_append.mpr ⟨h.nodup, hnodup, fun x hx y hy heq => ?_⟩
    subst heq
    exact ((hnew x).mp hy).2 ((h.visited x).mpr (Or.inr hx))
  · rw [hvisited, hcomp, hqueue', hlist, Finset.mem_union, List.mem_append, hnew, h.visited,
      List.mem_toFinset]
    by_cases hold : x ∈ old ∨ x ∈ s.comp ++ s.queue
    · tauto
    · tauto
  · rw [hcomp, hqueue', hlist, List.mem_append] at hx
    rcases hx with hx | hx
    · exact h.fresh x hx
    · exact fun hold => ((hnew x).mp hx).2 ((h.visited x).mpr (Or.inl hold))
  · rw [hcomp, hqueue', hlist, List.mem_append] at hx
    rcases hx with hx | hx
    · exact h.reached x hx
    · exact reachable_of_mem (h.reached a ha) ((hnew x).mp hx).1
  · rw [hvisited, Finset.mem_union, List.mem_toFinset]
    rw [hcomp, List.mem_append, List.mem_singleton] at hx
    rcases hx with hx | rfl
    · exact Or.inl (h.done x hx y hy)
    · exact Or.inr hy
  · rw [hcomp, hqueue', hlist, List.mem_append]
    exact Or.inl h.started

theorem Searching.search (h : Searching adj start old s) :
    Searching adj start old (search adj s) ∧ (Components.search adj s).queue = [] := by
  fun_induction Components.search adj s with
  | case1 s hnil => exact ⟨h, hnil⟩
  | case2 s a rest hcons ih => exact ih (h.expand hcons)

/-- The nodes seen so far have no neighbours outside. -/
def Settled (adj : Adjacency α) (old : Finset α) : Prop := ∀ x ∈ old, ∀ y ∈ adj.get x, y ∈ old

/-- **A search finds the component of its start**, and leaves a settled set. -/
theorem search_component (hold : Settled adj old) (hstart : start ∉ old)
    (hs : s = search adj ⟨insert start old, [start], []⟩) :
    s.comp.Nodup ∧ (∀ x, x ∈ s.comp ↔ adj.graph.Reachable start x) ∧
      (∀ x, x ∈ s.visited ↔ x ∈ old ∨ x ∈ s.comp) ∧ Settled adj s.visited := by
  obtain ⟨h, hnil⟩ := (@searching_start _ _ adj _ _ hstart).search
  rw [← hs] at h hnil
  obtain ⟨hnodup, hvisited, hfresh, hreached, hdone, hstarted⟩ := h
  rw [hnil, List.append_nil] at hnodup hvisited hfresh hreached hstarted
  have hclosed : ∀ x ∈ s.comp, ∀ y ∈ adj.get x, y ∈ s.comp := by
    intro x hx y hy
    refine ((hvisited y).mp (hdone x hx y hy)).resolve_left fun hy' => ?_
    exact hfresh x hx (hold y hy' x (adj.symm hy))
  have hwalk : ∀ {a b : α}, adj.graph.Walk a b → a ∈ s.comp → b ∈ s.comp := by
    intro a b walk ha
    induction walk with
    | nil => exact ha
    | cons hadj _ ih => exact ih (hclosed _ ha _ hadj.2)
  refine ⟨hnodup, fun x => ⟨hreached x, fun hx => ?_⟩, hvisited, fun x hx y hy => ?_⟩
  · obtain ⟨walk⟩ := hx
    exact hwalk walk hstarted
  · rw [hvisited] at hx ⊢
    rcases hx with hx | hx
    · exact Or.inl (hold x hx y hy)
    · exact Or.inr (hclosed x hx y hy)

/-! ## All components -/

/-- The searches from the keys, one after the other; a component with one node is not kept. -/
def components (adj : Adjacency α) : List α → Finset α → List (List α)
  | [], _ => []
  | k :: ks, visited =>
      if k ∈ visited then components adj ks visited
      else
        let s := search adj ⟨insert k visited, [k], []⟩
        (if 1 < s.comp.length then [s.comp] else []) ++ components adj ks s.visited

/-- The list has the nodes of the component, once each. -/
def Lists (G : SimpleGraph α) (comp : List α) (C : G.ConnectedComponent) : Prop :=
  comp.Nodup ∧ ∀ x, x ∈ comp ↔ x ∈ C.supp

section

variable {G : SimpleGraph α} {comp : List α} {C : G.ConnectedComponent}

theorem Lists.supp_eq (h : Lists G comp C) : C.supp = comp.toFinset := by
  ext x
  rw [← h.2 x, Finset.mem_coe, List.mem_toFinset]

theorem Lists.ncard (h : Lists G comp C) : C.supp.ncard = comp.length := by
  rw [h.supp_eq, Set.ncard_coe_finset, List.toFinset_card_of_nodup h.1]

theorem Lists.nontrivial_iff (h : Lists G comp C) : C.supp.Nontrivial ↔ 1 < comp.length := by
  rw [← h.ncard, Set.one_lt_ncard_iff_nontrivial_and_finite]
  refine (and_iff_left ?_).symm
  rw [h.supp_eq]
  exact Finset.finite_toSet _

end

/-- **The searches list the components that have a key not seen before**, those with two nodes or
    more, once each. -/
theorem exists_components (adj : Adjacency α) (ks : List α) {visited : Finset α}
    (hold : Settled adj visited) :
    ∃ Cs : List adj.graph.ConnectedComponent,
      List.Forall₂ (Lists adj.graph) (components adj ks visited) Cs ∧ Cs.Nodup ∧
        ∀ C, C ∈ Cs ↔ C.supp.Nontrivial ∧ ∃ k ∈ ks, k ∉ visited ∧ k ∈ C.supp := by
  induction ks generalizing visited with
  | nil => exact ⟨[], .nil, List.nodup_nil, fun C => by simp⟩
  | cons k ks ih =>
      rw [components]
      by_cases hk : k ∈ visited
      · rw [if_pos hk]
        obtain ⟨Cs, hlists, hnodup, hmem⟩ := ih hold
        refine ⟨Cs, hlists, hnodup, fun C => ?_⟩
        rw [hmem, and_congr_right_iff]
        intro _
        constructor
        · exact fun ⟨k', hk', hout, hin⟩ => ⟨k', List.mem_cons_of_mem k hk', hout, hin⟩
        · intro ⟨k', hk', hout, hin⟩
          rcases List.mem_cons.mp hk' with rfl | hk'
          · exact absurd hk hout
          · exact ⟨k', hk', hout, hin⟩
      · rw [if_neg hk]
        dsimp only
        generalize hs : search adj ⟨insert k visited, [k], []⟩ = s
        obtain ⟨hnodup, hreach, hvisited, hsettled⟩ := search_component hold hk hs.symm
        obtain ⟨Cs, hlists, hCs, hmem⟩ := ih hsettled
        have hlist : Lists adj.graph s.comp (adj.graph.connectedComponentMk k) := by
          refine ⟨hnodup, fun x => ?_⟩
          rw [hreach, SimpleGraph.ConnectedComponent.mem_supp_iff,
            SimpleGraph.ConnectedComponent.eq]
          exact ⟨fun h => h.symm, fun h => h.symm⟩
        have hnew : adj.graph.connectedComponentMk k ∉ Cs := by
          intro hin
          obtain ⟨_, k', _, hout, hk'⟩ := (hmem _).mp hin
          exact hout ((hvisited k').mpr (Or.inr ((hlist.2 k').mpr hk')))
        -- a component other than the one of `k` has the same unseen keys before and after
        have hother : ∀ C, C ≠ adj.graph.connectedComponentMk k →
            ((∃ k' ∈ k :: ks, k' ∉ visited ∧ k' ∈ C.supp) ↔
              ∃ k' ∈ ks, k' ∉ s.visited ∧ k' ∈ C.supp) := by
          intro C hC
          constructor
          · intro ⟨k', hk', hout, hin⟩
            rcases List.mem_cons.mp hk' with rfl | hk'
            · exact absurd hin.symm hC
            · refine ⟨k', hk', fun hseen => ?_, hin⟩
              rcases (hvisited k').mp hseen with hseen | hseen
              · exact hout hseen
              · exact hC (hin.symm.trans ((hlist.2 k').mp hseen))
          · intro ⟨k', hk', hout, hin⟩
            have hout' : k' ∉ visited := fun h => hout ((hvisited k').mpr (Or.inl h))
            exact ⟨k', List.mem_cons_of_mem k hk', hout', hin⟩
        by_cases hlong : 1 < s.comp.length
        · rw [if_pos hlong]
          refine ⟨adj.graph.connectedComponentMk k :: Cs, .cons hlist hlists,
            List.nodup_cons.mpr ⟨hnew, hCs⟩, fun C => ?_⟩
          rw [List.mem_cons, hmem]
          by_cases hC : C = adj.graph.connectedComponentMk k
          · refine iff_of_true (Or.inl hC) ⟨?_, k, List.mem_cons_self, hk, hC.symm⟩
            rw [hC]
            exact hlist.nontrivial_iff.mpr hlong
          · rw [hother C hC]
            exact ⟨fun h => h.resolve_left hC, Or.inr⟩
        · rw [if_neg hlong, List.nil_append]
          refine ⟨Cs, hlists, hCs, fun C => ?_⟩
          rw [hmem]
          by_cases hC : C = adj.graph.connectedComponentMk k
          · have hsmall : ¬ C.supp.Nontrivial := by
              rw [hC, hlist.nontrivial_iff]
              exact hlong
            exact iff_of_false (fun h => hsmall h.1) fun h => hsmall h.1
          · rw [hother C hC]

theorem exists_of_mem_left {β γ : Type} {R : β → γ → Prop} {l : List β} {l' : List γ}
    (h : List.Forall₂ R l l') {b : β} (hb : b ∈ l) : ∃ c ∈ l', R b c := by
  induction h with
  | nil => exact absurd hb List.not_mem_nil
  | cons hR _ ih =>
      rcases List.mem_cons.mp hb with rfl | hb
      · exact ⟨_, List.mem_cons_self, hR⟩
      · obtain ⟨c, hc, hR⟩ := ih hb
        exact ⟨c, List.mem_cons_of_mem _ hc, hR⟩

omit [DecidableEq α] in
theorem exists_key {C : adj.graph.ConnectedComponent} (h : C.supp.Nontrivial) :
    ∃ k ∈ adj.keys, k ∈ C.supp := by
  obtain ⟨x, hx, y, hy, hne⟩ := h
  obtain ⟨walk⟩ := SimpleGraph.ConnectedComponent.exact (hx.trans hy.symm)
  cases walk with
  | nil => exact absurd rfl hne
  | cons hadj _ => exact ⟨x, adj.closed (adj.symm hadj.2), hx⟩

/-- **The searches from all keys list the components with two nodes or more**, once each, whatever
    the order of the keys. -/
theorem exists_all_components (adj : Adjacency α) {ks : List α} (hks : ks.Perm adj.keys) :
    ∃ Cs : List adj.graph.ConnectedComponent,
      List.Forall₂ (Lists adj.graph) (components adj ks ∅) Cs ∧ Cs.Nodup ∧
        ∀ C, C ∈ Cs ↔ C.supp.Nontrivial := by
  have hnone : Settled adj ∅ := fun x hx => absurd hx (Finset.notMem_empty x)
  obtain ⟨Cs, hlists, hnodup, hmem⟩ := exists_components adj ks hnone
  refine ⟨Cs, hlists, hnodup, fun C => ?_⟩
  rw [hmem, and_iff_left_iff_imp]
  intro h
  obtain ⟨k, hk, hin⟩ := exists_key h
  exact ⟨k, hks.mem_iff.mpr hk, Finset.notMem_empty k, hin⟩

end Components
