import Mathlib.Logic.Relation
import CodeScope.Query.Communities

/-! # Communities are clusters

A label never leaves the connected component it started in: a node keeps its label or takes one of a
neighbour, and `Sound` says so of every node of every sweep, with the counters at zero in between.
The communities are the groups of the last labels, so they partition the nodes. -/

namespace CodeScope.Query

open Tally Grouping

variable {edges : List Edge}

/-! ## Nodes and neighbours -/

/-- The edges, read in both directions. -/
def Joined (edges : List Edge) (a b : ℕ) : Prop := (a, b) ∈ edges ∨ (b, a) ∈ edges

/-- Two nodes are in one connected component of the undirected call graph. -/
def SameComponent (edges : List Edge) (a b : ℕ) : Prop := Relation.ReflTransGen (Joined edges) a b

theorem Joined.symm {a b : ℕ} (h : Joined edges a b) : Joined edges b a := Or.symm h

theorem SameComponent.symm {a b : ℕ} (h : SameComponent edges a b) : SameComponent edges b a := by
  induction h with
  | refl => exact .refl
  | tail _ hjoined ih => exact .head hjoined.symm ih

variable {id i : ℕ} {order : HashOrder}

theorem mem_nodeIds : id ∈ nodeIds edges ↔ ∃ e ∈ edges, id = e.1 ∨ id = e.2 := by
  rw [nodeIds, Finset.mem_sort, List.mem_toFinset, List.mem_flatMap]
  simp

theorem nodup_nodeIds : (nodeIds edges).Nodup := Finset.sort_nodup _ _

theorem indexOf_lt (h : id ∈ nodeIds edges) : indexOf edges id < (nodeIds edges).length :=
  List.idxOf_lt_length_iff.mpr h

theorem getElem?_indexOf (h : id ∈ nodeIds edges) :
    (nodeIds edges)[indexOf edges id]? = some id := by
  rw [List.getElem?_eq_getElem (indexOf_lt h)]
  exact congrArg some (List.getElem_idxOf _)

theorem mem_fold_pushEdge (es : List Edge) {j : ℕ} :
    j ∈ es.foldl (pushEdge edges) (fun _ => []) i ↔ ∃ e ∈ es,
      (indexOf edges e.1 = i ∧ indexOf edges e.2 = j) ∨
        (indexOf edges e.2 = i ∧ indexOf edges e.1 = j) := by
  induction es using List.reverseRecOn with
  | nil => simp
  | append_singleton es e ih =>
      rw [List.foldl_append, List.foldl_cons, List.foldl_nil]
      have hpush : ∀ adj : ℕ → List ℕ, j ∈ pushEdge edges adj e i ↔ j ∈ adj i ∨
          (indexOf edges e.1 = i ∧ indexOf edges e.2 = j) ∨
            (indexOf edges e.2 = i ∧ indexOf edges e.1 = j) := by
        intro adj
        by_cases hb : i = indexOf edges e.2 <;> by_cases ha : i = indexOf edges e.1 <;>
          simp [pushEdge, Function.update_apply, ha, hb] <;> grind
      rw [hpush, ih]
      simp only [List.mem_append, List.mem_singleton, or_and_right, exists_or, exists_eq_left]

theorem mem_adjacency {j : ℕ} : j ∈ adjacency edges i ↔ ∃ e ∈ edges,
    (indexOf edges e.1 = i ∧ indexOf edges e.2 = j) ∨
      (indexOf edges e.2 = i ∧ indexOf edges e.1 = j) := by
  rw [adjacency, Finset.mem_sort, List.mem_toFinset, mem_fold_pushEdge]

/-- Two positions whose nodes are in one component. -/
def InComponent (edges : List Edge) (i l : ℕ) : Prop :=
  ∃ a b, (nodeIds edges)[i]? = some a ∧ (nodeIds edges)[l]? = some b ∧ SameComponent edges a b

theorem InComponent.refl (h : i < (nodeIds edges).length) : InComponent edges i i :=
  ⟨_, _, List.getElem?_eq_getElem h, List.getElem?_eq_getElem h, .refl⟩

theorem InComponent.trans {j l : ℕ} (h : InComponent edges i j) (h' : InComponent edges j l) :
    InComponent edges i l := by
  obtain ⟨a, b, ha, hb, hab⟩ := h
  obtain ⟨b', c, hb', hc, hbc⟩ := h'
  obtain rfl : b = b' := Option.some.inj (hb.symm.trans hb')
  exact ⟨a, c, ha, hc, Relation.ReflTransGen.trans hab hbc⟩

theorem InComponent.symm {j : ℕ} (h : InComponent edges i j) : InComponent edges j i := by
  obtain ⟨a, b, ha, hb, hab⟩ := h
  exact ⟨b, a, hb, ha, hab.symm⟩

theorem InComponent.lt {j : ℕ} (h : InComponent edges i j) : j < (nodeIds edges).length := by
  obtain ⟨a, b, -, hb, -⟩ := h
  exact (List.getElem?_eq_some_iff.mp hb).1

theorem inComponent_of_mem {j : ℕ} (h : j ∈ adjacency edges i) : InComponent edges i j := by
  obtain ⟨e, he, hends⟩ := mem_adjacency.mp h
  have hfst := getElem?_indexOf (mem_nodeIds.mpr ⟨e, he, Or.inl rfl⟩)
  have hsnd := getElem?_indexOf (mem_nodeIds.mpr ⟨e, he, Or.inr rfl⟩)
  rcases hends with ⟨rfl, rfl⟩ | ⟨rfl, rfl⟩
  · exact ⟨e.1, e.2, hfst, hsnd, .single (Or.inl he)⟩
  · exact ⟨e.2, e.1, hsnd, hfst, .single (Or.inr he)⟩

/-! ## One node -/

theorem smallestOf_mem {counts : ℕ → ℕ} {best c : ℕ} {touched : List ℕ}
    (h : smallestOf counts best touched = some c) : c ∈ touched := by
  induction touched using List.reverseRecOn generalizing c with
  | nil => cases h
  | append_singleton touched a ih =>
      rw [smallestOf, List.foldl_append, List.foldl_cons, List.foldl_nil] at h
      have hbefore : smallestOf counts best touched = touched.foldl _ none := rfl
      rw [← hbefore] at h
      cases hs : smallestOf counts best touched with
      | none =>
          rw [hs] at h
          grind
      | some s =>
          have hmem := ih hs
          rw [hs] at h
          grind

theorem pickLabel_mem (counts : ℕ → ℕ) (touched : List ℕ) (current : ℕ) :
    pickLabel counts touched current = current ∨ pickLabel counts touched current ∈ touched := by
  unfold pickLabel
  dsimp only
  split_ifs with hwins
  · exact Or.inl rfl
  · cases hs : smallestOf counts (touched.foldl (fun best c => max best (counts c)) 0) touched with
    | none => exact Or.inl rfl
    | some c => exact Or.inr (smallestOf_mem hs)

/-- The labels after the first `m` nodes of a sweep. -/
structure Sound (edges : List Edge) (m : ℕ) (s : Lpa) : Prop where
  label : ∀ i < (nodeIds edges).length, InComponent edges i (s.label i)
  next_label : ∀ i < m, InComponent edges i (s.next_label i)
  label_count : ∀ l, s.label_count l = 0

/-- **One node of a sweep**: it gets a label of its component, and the counters are zero again. -/
theorem Sound.visitNode {m : ℕ} {s : Lpa} (h : Sound edges m s) (hm : m < (nodeIds edges).length) :
    Sound edges (m + 1) (visitNode (adjacency edges) s m) := by
  have hnext : ∀ best, InComponent edges m best →
      ∀ i < m + 1, InComponent edges i (Function.update s.next_label m best i) := by
    intro best hbest i hi
    by_cases him : i = m
    · rw [him, Function.update_self]
      exact hbest
    · rw [Function.update_of_ne him]
      exact h.next_label i (by omega)
  unfold Query.visitNode
  split_ifs with hempty
  · exact ⟨h.label, hnext _ (h.label m hm), h.label_count⟩
  · refine ⟨h.label, hnext _ ?_, fun l => reset_tally h.label_count _ l⟩
    rcases pickLabel_mem (tally s.label_count ((adjacency edges m).map s.label)).counts
      (tally s.label_count ((adjacency edges m).map s.label)).touched (s.label m) with heq | hmem
    · rw [heq]
      exact h.label m hm
    · rw [mem_touched h.label_count, List.mem_map] at hmem
      obtain ⟨nb, hnb, heq⟩ := hmem
      have hjoined := inComponent_of_mem hnb
      rw [← heq]
      exact hjoined.trans (h.label nb hjoined.lt)

/-! ## Rounds -/

theorem sweep_succ (adj : ℕ → List ℕ) (s : Lpa) (m : ℕ) :
    sweep adj s (m + 1) = visitNode adj (sweep adj s m) m := by
  rw [sweep, List.range_succ, List.foldl_append]
  rfl

theorem Sound.sweep {s : Lpa} (h : Sound edges 0 s) {m : ℕ} (hm : m ≤ (nodeIds edges).length) :
    Sound edges m (sweep (adjacency edges) s m) := by
  induction m with
  | zero => exact ⟨h.label, h.next_label, h.label_count⟩
  | succ m ih =>
      rw [sweep_succ]
      exact (ih (Nat.le_of_succ_le hm)).visitNode hm

theorem Sound.swap {s : Lpa} (h : Sound edges (nodeIds edges).length s) : Sound edges 0 s.swap :=
  ⟨h.next_label, fun i hi => absurd hi (Nat.not_lt_zero i), h.label_count⟩

/-- The states at the beginning of the rounds. -/
inductive AtRound (edges : List Edge) : ℕ → Lpa → Prop
  | first : AtRound edges 0 .start
  | next {r : ℕ} {s : Lpa} : AtRound edges r s →
      (sweep (adjacency edges) s (nodeIds edges).length).changed = true →
      r + 1 < kMaxLpaIterations →
      AtRound edges (r + 1) (sweep (adjacency edges) s (nodeIds edges).length).swap

theorem sound_start : Sound edges 0 .start :=
  ⟨fun _ hi => .refl hi, fun i hi => absurd hi (Nat.not_lt_zero i), fun _ => rfl⟩

theorem AtRound.sound {r : ℕ} {s : Lpa} (h : AtRound edges r s) : Sound edges 0 s := by
  induction h with
  | first => exact sound_start
  | next _ _ _ ih => exact (ih.sweep le_rfl).swap

/-- The loop ends with the sweep of one of its rounds. -/
theorem propagate_atRound {rounds r : ℕ} {s : Lpa} (h : AtRound edges r s)
    (hrounds : r + rounds = kMaxLpaIterations) (hpos : 0 < rounds) :
    ∃ r' s', AtRound edges r' s' ∧
      propagate (adjacency edges) (nodeIds edges).length rounds s =
        (sweep (adjacency edges) s' (nodeIds edges).length).swap := by
  induction rounds generalizing r s with
  | zero => omega
  | succ rounds ih =>
      rw [propagate]
      split_ifs with hchanged
      · by_cases hlast : rounds = 0
        · subst hlast
          exact ⟨r, s, h, rfl⟩
        · exact ih (h.next hchanged (by omega)) (by omega) (by omega)
      · exact ⟨r, s, h, rfl⟩

theorem finalLabel_inComponent (hi : i < (nodeIds edges).length) :
    InComponent edges i (finalLabel edges i) := by
  obtain ⟨r, s, hround, heq⟩ :=
    @propagate_atRound edges kMaxLpaIterations 0 _ .first (Nat.zero_add _) (by decide)
  rw [finalLabel, heq]
  exact ((hround.sound.sweep le_rfl).swap).label i hi

/-! ## The partition -/

/-- The ids of the members. -/
def CommunityRow.ids (edges : List Edge) (row : CommunityRow) : List ℕ :=
  row.members.map fun i => (nodeIds edges).getD i 0

/-- The nodes with a label, in their order. -/
def labelled (edges : List Edge) (l : ℕ) : List ℕ :=
  withKey (finalLabel edges) (List.range (nodeIds edges).length) l

/-- The labels in use, in the order of the hash map. -/
def labelsOf (order : HashOrder) (edges : List Edge) : List ℕ :=
  order.list (groupBy (finalLabel edges) (List.range (nodeIds edges).length)).order

theorem mem_labelsOf {l : ℕ} : l ∈ labelsOf order edges ↔
    ∃ i < (nodeIds edges).length, finalLabel edges i = l := by
  rw [labelsOf, order.mem, (groupBy_of _ _).mem_order]
  simp

theorem communities_perm (order : HashOrder) (edges : List Edge) :
    (communities order edges).Perm ((labelsOf order edges).map fun l =>
      { representative := representativeOf (adjacency edges) (labelled edges l),
        members := labelled edges l }) := by
  have hgroups := groupBy_of (finalLabel edges) (List.range (nodeIds edges).length)
  have hmembers : ∀ l ∈ labelsOf order edges,
      ((groupBy (finalLabel edges) (List.range (nodeIds edges).length)).members l).getD [] =
        labelled edges l := by
    intro l hl
    rw [hgroups.members_eq, if_pos (order.mem.mp hl)]
    rfl
  refine (List.mergeSort_perm _ _).trans (List.Perm.of_eq (List.map_congr_left fun l hl => ?_))
  rw [hmembers l hl]

theorem mem_communities {row : CommunityRow} (h : row ∈ communities order edges) :
    ∃ l ∈ labelsOf order edges, row.members = labelled edges l := by
  obtain ⟨l, hl, rfl⟩ := List.mem_map.mp ((communities_perm order edges).mem_iff.mp h)
  exact ⟨l, hl, rfl⟩

theorem exists_community {l : ℕ} (h : l ∈ labelsOf order edges) :
    ∃ row ∈ communities order edges, row.members = labelled edges l :=
  ⟨_, (communities_perm order edges).mem_iff.mpr (List.mem_map_of_mem h), rfl⟩

theorem mem_labelled {l : ℕ} : i ∈ labelled edges l ↔
    i < (nodeIds edges).length ∧ finalLabel edges i = l := by
  simp [labelled, withKey]

theorem mem_ids_of_members {row : CommunityRow} {l : ℕ} (h : row.members = labelled edges l) :
    id ∈ row.ids edges ↔ id ∈ nodeIds edges ∧ finalLabel edges (indexOf edges id) = l := by
  rw [CommunityRow.ids, h, List.mem_map]
  constructor
  · rintro ⟨i, hi, rfl⟩
    obtain ⟨hlt, hlabel⟩ := mem_labelled.mp hi
    rw [List.getD_eq_getElem _ 0 hlt]
    have hindex : indexOf edges (nodeIds edges)[i] = i := nodup_nodeIds.idxOf_getElem i hlt
    exact ⟨List.getElem_mem hlt, by rw [hindex, hlabel]⟩
  · rintro ⟨hmem, hlabel⟩
    refine ⟨indexOf edges id, mem_labelled.mpr ⟨indexOf_lt hmem, hlabel⟩, ?_⟩
    rw [List.getD_eq_getElem?_getD, getElem?_indexOf hmem]
    rfl

/-- **The communities partition the nodes.** -/
theorem communities_partition (order : HashOrder) (edges : List Edge) :
    ((communities order edges).flatMap (·.ids edges)).Perm (nodeIds edges) := by
  have hmembers : ((communities order edges).flatMap (·.members)).Perm
      (List.range (nodeIds edges).length) := by
    refine ((communities_perm order edges).flatMap_right _).trans ?_
    rw [List.flatMap_map]
    refine flatMap_withKey_perm (order.nodup _) fun i hi => ?_
    exact mem_labelsOf.mpr ⟨i, List.mem_range.mp hi, rfl⟩
  have hids : (communities order edges).flatMap (·.ids edges) =
      ((communities order edges).flatMap (·.members)).map fun i => (nodeIds edges).getD i 0 := by
    rw [List.map_flatMap]
    rfl
  have hall : (List.range (nodeIds edges).length).map (fun i => (nodeIds edges).getD i 0) =
      nodeIds edges := by
    refine List.ext_getElem (by simp) fun i _ hi => ?_
    simp [List.getElem?_eq_getElem hi]
  rw [hids]
  exact (hmembers.map _).trans (List.Perm.of_eq hall)

theorem community_connected {row : CommunityRow} (h : row ∈ communities order edges) {a b : ℕ}
    (ha : a ∈ row.ids edges) (hb : b ∈ row.ids edges) : SameComponent edges a b := by
  obtain ⟨l, -, hmembers⟩ := mem_communities h
  obtain ⟨hamem, halabel⟩ := (mem_ids_of_members hmembers).mp ha
  obtain ⟨hbmem, hblabel⟩ := (mem_ids_of_members hmembers).mp hb
  have hal := finalLabel_inComponent (indexOf_lt hamem)
  have hbl := finalLabel_inComponent (indexOf_lt hbmem)
  rw [halabel] at hal
  rw [hblabel] at hbl
  obtain ⟨a', b', ha', hb', hab⟩ := hal.trans hbl.symm
  rw [getElem?_indexOf hamem] at ha'
  rw [getElem?_indexOf hbmem] at hb'
  rw [Option.some.inj ha', Option.some.inj hb']
  exact hab

/-- **The count between communities** is that of the edges with no community around both ends. -/
theorem interCommunityEdges_eq (order : HashOrder) (edges : List Edge) :
    interCommunityEdges edges = edges.countP fun e =>
      decide (∀ row ∈ communities order edges, ¬ (e.1 ∈ row.ids edges ∧ e.2 ∈ row.ids edges)) := by
  refine List.countP_congr fun e he => ?_
  have hfst := mem_nodeIds.mpr ⟨e, he, Or.inl rfl⟩
  have hsnd := mem_nodeIds.mpr ⟨e, he, Or.inr rfl⟩
  rw [decide_eq_true_iff, decide_eq_true_iff]
  constructor
  · rintro hne row hrow ⟨hmem, hmem'⟩
    obtain ⟨l, -, hmembers⟩ := mem_communities hrow
    rw [mem_ids_of_members hmembers] at hmem hmem'
    exact hne (hmem.2.trans hmem'.2.symm)
  · intro hnone heq
    obtain ⟨row, hrow, hmembers⟩ := @exists_community edges order _
      (mem_labelsOf.mpr ⟨_, indexOf_lt hfst, rfl⟩)
    refine hnone row hrow ⟨?_, ?_⟩
    · exact (mem_ids_of_members hmembers).mpr ⟨hfst, rfl⟩
    · exact (mem_ids_of_members hmembers).mpr ⟨hsnd, heq.symm⟩

/-! ## The response -/

/-- The id and the size that a row is reported with. -/
def CommunityRow.headOf (edges : List Edge) (row : CommunityRow) : ℕ × ℕ :=
  ((nodeIds edges).getD row.representative 0, row.members.length)

/-- The ids that a line lists. -/
def CommunityLine.ids (line : CommunityLine) : List ℕ := (line.members.getD []).map (·.id)

section

variable (line : ℕ → MemberLine) (hline : ∀ id, (line id).id = id) (maxMembers : ℕ)

theorem emitted_heads (rows : List CommunityRow) (includeMembers : Bool) (s : Emitted) :
    (rows.foldl (emitRow edges line maxMembers includeMembers) s).lines.map
        (fun l => (l.id, l.memberCount)) =
      s.lines.map (fun l => (l.id, l.memberCount)) ++ rows.map (·.headOf edges) := by
  induction rows generalizing s with
  | nil => simp
  | cons row rows ih =>
      rw [List.foldl_cons, ih, emitRow]
      cases includeMembers <;> simp [CommunityRow.headOf]

include hline

/-- Nothing is left out unless the response says so. -/
theorem emitted_members (rows : List CommunityRow) (s : Emitted)
    (hdone : (rows.foldl (emitRow edges line maxMembers true) s).membersTruncated = false) :
    s.membersTruncated = false ∧
      (rows.foldl (emitRow edges line maxMembers true) s).lines.map (·.ids) =
        s.lines.map (·.ids) ++ rows.map (·.ids edges) := by
  induction rows generalizing s with
  | nil => exact ⟨hdone, by simp⟩
  | cons row rows ih =>
      rw [List.foldl_cons] at hdone ⊢
      obtain ⟨hstep, hlines⟩ := ih _ hdone
      simp only [emitRow, if_true, Bool.or_eq_false_iff, decide_eq_false_iff_not, not_lt] at hstep
      obtain ⟨⟨hbefore, hall⟩, hroom⟩ := hstep
      refine ⟨hbefore, ?_⟩
      have htake : row.members.take (min (min row.members.length maxMembers)
          (kMaxTotalMembersEmitted - s.total)) = row.members :=
        List.take_of_length_le (by omega)
      have hids : row.members.map ((fun m : MemberLine => m.id) ∘
          fun i => line ((nodeIds edges).getD i 0)) = row.ids edges :=
        List.map_congr_left fun i _ => hline _
      rw [hlines]
      simp only [emitRow, if_true, htake, List.map_append, List.map_cons, List.map_nil,
        CommunityLine.ids, Option.getD_some, List.map_map, hids, List.append_assoc]
      rfl

end

theorem memberLine_id (E : EntityTable) (projectId id : ℕ) :
    (memberLine E projectId id).id = id := by
  unfold memberLine
  split <;> rfl

theorem communities_nil (order : HashOrder) : communities order [] = [] := by
  have hmem : labelsOf order [] = [] := by
    refine List.eq_nil_iff_forall_not_mem.mpr fun l hl => ?_
    obtain ⟨i, hi, -⟩ := mem_labelsOf.mp hl
    simp [nodeIds] at hi
  have hlist := communities_perm order []
  rw [hmem] at hlist
  exact List.perm_nil.mp hlist

/-- The response of a store that answers. -/
theorem getCommunities_report (order : HashOrder) (relations : List Relation) (E : EntityTable)
    (projectId : ℕ) (max_members max_communities : ℤ) (include_members entitiesPrepared : Bool) :
    let edges := callEdges relations projectId
    let report := getCommunities order { ready := true, edgesPrepared := true, entitiesPrepared }
      relations E projectId max_members max_communities include_members
    report.totalCommunities = (communities order edges).length ∧
      report.interCommunityEdges = interCommunityEdges edges ∧
      report.communities.map (fun l => (l.id, l.memberCount)) =
        ((communities order edges).take report.returnedCommunities).map (·.headOf edges) ∧
      (report.truncated = false →
        report.returnedCommunities = (communities order edges).length ∧
        (include_members = true →
          report.communities.map (·.ids) = (communities order edges).map (·.ids edges))) := by
  intro edges report
  by_cases hempty : edges = []
  · have hreport : report = emptyResult none := by
      simp only [report, getCommunities]
      simp [edges] at hempty
      simp [hempty]
    rw [hreport, hempty, communities_nil]
    simp [emptyResult, interCommunityEdges]
  · have hline : ∀ id, (if entitiesPrepared then memberLine E projectId id
        else { id, name := [], filePath := [] }).id = id := by
      intro id
      split_ifs
      · exact memberLine_id E projectId id
      · rfl
    have hisEmpty : (callEdges relations projectId).isEmpty = false :=
      List.isEmpty_eq_false_iff.mpr hempty
    simp only [report, getCommunities, hisEmpty, Bool.not_true,
      Bool.false_eq_true, if_false]
    refine ⟨rfl, rfl, ?_, fun htruncated => ?_⟩
    · rw [emitted_heads]
      rfl
    · rw [Bool.or_eq_false_iff, decide_eq_false_iff_not] at htruncated
      obtain ⟨hreturned, hmembers⟩ := htruncated
      have hle := Nat.min_le_left (communities order edges).length
        (clampLimit max_communities kDefaultMaxCommunities kMaxCommunitiesCap)
      have hall : min (communities order edges).length (clampLimit max_communities
          kDefaultMaxCommunities kMaxCommunitiesCap) = (communities order edges).length := by
        exact Nat.le_antisymm hle (Nat.not_lt.mp hreturned)
      refine ⟨hall, fun hinclude => ?_⟩
      subst hinclude
      obtain ⟨-, hlines⟩ := emitted_members _ hline _ _ _ hmembers
      rw [hlines]
      change [] ++ ((communities order edges).take _).map _ = _
      rw [List.nil_append, hall, List.take_length]

/-! ## Sound clusters -/

/-- A relation is a call from one entity of the project to another. -/
def Relation.IsCall (r : Relation) (projectId : ℕ) : Prop :=
  r.projectId = projectId ∧ r.type = 1 ∧ r.sourceId ≠ 0 ∧ r.targetId ≠ 0 ∧ r.sourceId ≠ r.targetId

instance (r : Relation) (projectId : ℕ) : Decidable (r.IsCall projectId) :=
  inferInstanceAs (Decidable (_ ∧ _ ∧ _ ∧ _ ∧ _))

theorem callEdges_perm (relations : List Relation) (projectId : ℕ) :
    (callEdges relations projectId).Perm
      ((relations.filter fun r => r.IsCall projectId).map fun r => (r.sourceId, r.targetId)) := by
  have hrows := (List.mergeSort_perm ((relations.filter fun r => r.projectId = projectId ∧
    r.type = 1).map fun r => (r.sourceId, r.targetId))
      fun a b => decide (a.1 < b.1 ∨ (a.1 = b.1 ∧ a.2 ≤ b.2))).filter
        fun e => !decide (e.1 = 0 ∨ e.2 = 0 ∨ e.1 = e.2)
  refine hrows.trans (List.Perm.of_eq ?_)
  rw [List.filter_map, List.filter_filter]
  refine congrArg (List.map _) (List.filter_congr fun r _ => ?_)
  rw [Bool.eq_iff_iff]
  simp only [Function.comp_apply, Bool.and_eq_true, Bool.not_eq_true', decide_eq_true_iff,
    decide_eq_false_iff_not]
  unfold Relation.IsCall
  tauto

theorem mem_nodeIds_callEdges {relations : List Relation} {projectId : ℕ} :
    id ∈ nodeIds (callEdges relations projectId) ↔
      ∃ r ∈ relations, r.IsCall projectId ∧ (id = r.sourceId ∨ id = r.targetId) := by
  rw [mem_nodeIds]
  simp only [(callEdges_perm relations projectId).mem_iff, List.mem_map, List.mem_filter,
    decide_eq_true_iff]
  constructor
  · rintro ⟨-, ⟨r, ⟨hr, hcall⟩, rfl⟩, hid⟩
    exact ⟨r, hr, hcall, hid⟩
  · rintro ⟨r, hr, hcall, hid⟩
    exact ⟨_, ⟨r, ⟨hr, hcall⟩, rfl⟩, hid⟩

/-- **Communities are sound clusters**: through every sweep of every round the labels stay in their
    components and the counters are zero after each node; the communities partition the nodes with a
    call to or from another node, each inside one component; the count between communities is that
    of the calls with their ends in different ones; and the response counts and lists these
    communities, all of them and in full unless it says `truncated`. -/
theorem communities_sound (order : HashOrder) (relations : List Relation) (projectId : ℕ) :
    let edges := callEdges relations projectId
    let rows := communities order edges
    (∀ r s, AtRound edges r s → ∀ m ≤ (nodeIds edges).length,
      (∀ i < (nodeIds edges).length,
        InComponent edges i ((sweep (adjacency edges) s m).label i)) ∧
      (∀ i < m, InComponent edges i ((sweep (adjacency edges) s m).next_label i)) ∧
      ∀ l, (sweep (adjacency edges) s m).label_count l = 0) ∧
    (∀ i < (nodeIds edges).length, InComponent edges i (finalLabel edges i)) ∧
    ((rows.flatMap (·.ids edges)).Nodup ∧ ∀ id, id ∈ rows.flatMap (·.ids edges) ↔
      ∃ r ∈ relations, r.IsCall projectId ∧ (id = r.sourceId ∨ id = r.targetId)) ∧
    (∀ row ∈ rows, row.members ≠ [] ∧
      ∀ a ∈ row.ids edges, ∀ b ∈ row.ids edges, SameComponent edges a b) ∧
    interCommunityEdges edges = relations.countP (fun r => decide (r.IsCall projectId ∧
      ∀ row ∈ rows, ¬ (r.sourceId ∈ row.ids edges ∧ r.targetId ∈ row.ids edges))) ∧
    ∀ E max_members max_communities include_members entitiesPrepared,
      let report := getCommunities order { ready := true, edgesPrepared := true, entitiesPrepared }
        relations E projectId max_members max_communities include_members
      report.totalCommunities = rows.length ∧
        report.interCommunityEdges = interCommunityEdges edges ∧
        report.communities.map (fun l => (l.id, l.memberCount)) =
          (rows.take report.returnedCommunities).map (·.headOf edges) ∧
        (report.truncated = false → report.returnedCommunities = rows.length ∧
          (include_members = true →
            report.communities.map (·.ids) = rows.map (·.ids edges))) := by
  intro edges rows
  have hpartition := communities_partition order edges
  refine ⟨?_, fun i hi => finalLabel_inComponent hi, ⟨?_, fun id => ?_⟩, fun row hrow => ⟨?_, ?_⟩,
    ?_, ?_⟩
  · intro r s hround m hm
    have hsound := hround.sound.sweep hm
    exact ⟨hsound.label, hsound.next_label, hsound.label_count⟩
  · exact hpartition.nodup_iff.mpr nodup_nodeIds
  · rw [hpartition.mem_iff]
    exact mem_nodeIds_callEdges
  · obtain ⟨l, hl, hmembers⟩ := mem_communities hrow
    obtain ⟨i, hi, hlabel⟩ := mem_labelsOf.mp hl
    rw [hmembers]
    exact List.ne_nil_of_mem (mem_labelled.mpr ⟨hi, hlabel⟩)
  · intro a ha b hb
    exact community_connected hrow ha hb
  · rw [interCommunityEdges_eq order, (callEdges_perm relations projectId).countP_eq,
      List.countP_map, List.countP_filter]
    refine List.countP_congr fun r _ => ?_
    simp [rows, edges, and_comm]
  · intro E max_members max_communities include_members entitiesPrepared
    exact getCommunities_report order relations E projectId max_members max_communities
      include_members entitiesPrepared

end CodeScope.Query
