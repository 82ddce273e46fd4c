import Mathlib

/-! # Unions of rankings

Several ranked lists are read one after the other; an element counts where its key occurs first. A
list of results that is filled one element at a time, up to a limit, is the front of that union
(`appendNew_eq`), also when only the front of each list is asked for, as long as the front is as
long as the limit (`fresh_take_limit`). When it is only as long as the room that is left, elements
that are known already use the room up (`take_fresh_iff`). -/

namespace RankedUnion

variable {α κ : Type} [DecidableEq κ] (key : α → κ)

/-- The elements whose key is neither among those seen nor further to the front. -/
def fresh (seen : Finset κ) : List α → List α
  | [] => []
  | a :: l => if key a ∈ seen then fresh seen l else a :: fresh (insert (key a) seen) l

/-- The first elements of the union of two or more rankings, which are given end to end. -/
def union (limit : ℕ) (l : List α) : List α := (fresh key ∅ l).take limit

/-- Append the elements with a new key until there are `limit` results. -/
def appendNew (limit : ℕ) (results : List α) : List α → List α
  | [] => results
  | a :: l =>
    if limit ≤ results.length then results
    else if key a ∈ results.map key then appendNew limit results l
    else appendNew limit (results ++ [a]) l

variable {key} {seen : Finset κ} {l l' results : List α} {limit : ℕ}

theorem fresh_append : fresh key seen (l ++ l') =
    fresh key seen l ++ fresh key (seen ∪ (l.map key).toFinset) l' := by
  induction l generalizing seen with
  | nil => simp [fresh]
  | cons a l ih =>
      simp only [List.cons_append, fresh, List.map_cons, List.toFinset_cons]
      by_cases ha : key a ∈ seen
      · rw [if_pos ha, if_pos ha, ih, Finset.union_insert, ← Finset.insert_union,
          Finset.insert_eq_of_mem ha]
      · rw [if_neg ha, if_neg ha, ih, Finset.union_insert, ← Finset.insert_union, List.cons_append]

theorem fresh_eq_filter (h : (l.map key).Nodup) :
    fresh key seen l = l.filter fun a => key a ∉ seen := by
  induction l generalizing seen with
  | nil => rfl
  | cons a l ih =>
      rw [List.map_cons, List.nodup_cons] at h
      by_cases ha : key a ∈ seen
      · rw [fresh, if_pos ha, ih h.2, List.filter_cons_of_neg (by simpa using ha)]
      · rw [fresh, if_neg ha, ih h.2, List.filter_cons_of_pos (by simpa using ha)]
        congr 1
        apply List.filter_congr
        intro b hb
        have hne : key b ≠ key a := fun he => h.1 (he ▸ List.mem_map_of_mem hb)
        simp [hne]

theorem fresh_of_nodup (h : (l.map key).Nodup) : fresh key ∅ l = l := by
  rw [fresh_eq_filter h, List.filter_eq_self]
  simp

theorem mem_keys_fresh {k : κ} :
    k ∈ (fresh key seen l).map key ↔ k ∈ l.map key ∧ k ∉ seen := by
  induction l generalizing seen with
  | nil => simp [fresh]
  | cons a l ih =>
      by_cases ha : key a ∈ seen
      · rw [fresh, if_pos ha, ih, List.map_cons, List.mem_cons]
        constructor
        · exact fun h => ⟨Or.inr h.1, h.2⟩
        · rintro ⟨rfl | hk, hseen⟩
          · exact absurd ha hseen
          · exact ⟨hk, hseen⟩
      · rw [fresh, if_neg ha, List.map_cons, List.mem_cons, ih, List.map_cons, List.mem_cons,
          Finset.mem_insert]
        by_cases hk : k = key a
        · simp [hk, ha]
        · simp [hk]

theorem toFinset_keys_fresh : ((fresh key ∅ l).map key).toFinset = (l.map key).toFinset := by
  ext k
  simp only [List.mem_toFinset, mem_keys_fresh, Finset.notMem_empty, not_false_eq_true, and_true]

theorem nodup_keys_fresh : ((fresh key seen l).map key).Nodup := by
  induction l generalizing seen with
  | nil => exact List.nodup_nil
  | cons a l ih =>
      by_cases ha : key a ∈ seen
      · rw [fresh, if_pos ha]
        exact ih
      · rw [fresh, if_neg ha, List.map_cons, List.nodup_cons]
        refine ⟨fun hmem => ?_, ih⟩
        exact (mem_keys_fresh.mp hmem).2 (Finset.mem_insert_self _ _)

theorem length_fresh : (fresh key ∅ l).length = (l.map key).toFinset.card := by
  rw [← toFinset_keys_fresh, List.toFinset_card_of_nodup nodup_keys_fresh, List.length_map]

/-- **Filling up a list of results is taking the front of the union.** -/
theorem appendNew_eq (hroom : results.length ≤ limit) : appendNew key limit results l =
    (results ++ fresh key (results.map key).toFinset l).take limit := by
  induction l generalizing results with
  | nil => rw [appendNew, fresh, List.append_nil, List.take_of_length_le hroom]
  | cons a l ih =>
      rw [appendNew, fresh]
      by_cases hfull : limit ≤ results.length
      · -- Nothing more is read, and what would follow lies behind the limit.
        rw [if_pos hfull, show limit = results.length by omega, List.take_left]
      · rw [if_neg hfull]
        by_cases ha : key a ∈ results.map key
        · rw [if_pos ha, if_pos (List.mem_toFinset.mpr ha), ih hroom]
        · have hlength : (results ++ [a]).length ≤ limit := by
            rw [List.length_append, List.length_singleton]
            omega
          have hkeys : ((results ++ [a]).map key).toFinset =
              insert (key a) (results.map key).toFinset := by
            simp [List.toFinset_append]
          rw [if_neg ha, if_neg (fun h => ha (List.mem_toFinset.mp h)), ih hlength, hkeys,
            List.append_assoc, List.singleton_append]

/-- At most as many elements of a ranking are dropped as keys were seen. -/
theorem length_le_fresh (h : (l.map key).Nodup) :
    l.length ≤ (fresh key seen l).length + seen.card := by
  have hsub : ((l.filter fun a => key a ∈ seen).map key).toFinset ⊆ seen := by
    intro k hk
    simp only [List.mem_toFinset, List.mem_map, List.mem_filter, decide_eq_true_eq] at hk
    obtain ⟨a, ⟨-, ha⟩, rfl⟩ := hk
    exact ha
  have hnodup : ((l.filter fun a => key a ∈ seen).map key).Nodup :=
    h.sublist (List.filter_sublist.map key)
  have hcard := Finset.card_le_card hsub
  rw [List.toFinset_card_of_nodup hnodup, List.length_map] at hcard
  have hsplit := List.length_eq_length_filter_add (l := l) fun a => decide (key a ∈ seen)
  have hfresh : (fresh key seen l).length = (l.filter fun a => ! decide (key a ∈ seen)).length := by
    rw [fresh_eq_filter h]
    simp
  omega

/-- **A front as long as the limit is long enough**, whatever was seen. -/
theorem fresh_take_limit (h : (l.map key).Nodup) {room : ℕ} (hroom : room + seen.card ≤ limit) :
    (fresh key seen (l.take limit)).take room = (fresh key seen l).take room := by
  by_cases hshort : l.length ≤ limit
  · rw [List.take_of_length_le hshort]
  · have hfront : ((l.take limit).map key).Nodup := h.sublist ((List.take_sublist limit l).map key)
    have hlength : (l.take limit).length ≤ (fresh key seen (l.take limit)).length + seen.card :=
      length_le_fresh hfront
    rw [List.length_take, Nat.min_eq_left (by omega)] at hlength
    conv_rhs => rw [← List.take_append_drop limit l, fresh_append]
    rw [List.take_append_of_le_length (by omega)]

/-- **Two rankings, each asked for as many elements as the limit.** -/
theorem union_two (h : (l.map key).Nodup) (h' : (l'.map key).Nodup) :
    (if (l.take limit).length < limit then appendNew key limit (l.take limit) (l'.take limit)
      else l.take limit) = union key limit (l ++ l') := by
  rw [union, fresh_append, fresh_of_nodup h, Finset.empty_union]
  by_cases hshort : l.length < limit
  · have hall : l.take limit = l := List.take_of_length_le (by omega)
    have hcard : (l.map key).toFinset.card ≤ l.length := by
      simpa using List.toFinset_card_le (l.map key)
    rw [hall, if_pos hshort, appendNew_eq (by omega), List.take_append, List.take_append,
      fresh_take_limit h' (by omega)]
  · rw [if_neg (by rw [List.length_take]; omega), List.take_append_of_le_length (by omega)]

theorem length_union : (union key limit l).length = min limit (l.map key).toFinset.card := by
  rw [union, List.length_take, length_fresh]

theorem union_last (h' : (l'.map key).Nodup) : union key limit (l ++ l') =
    union key limit l ++ (l'.filter fun a => key a ∉ (l.map key).toFinset).take
      (limit - (l.map key).toFinset.card) := by
  rw [union, union, fresh_append, List.take_append, Finset.empty_union, fresh_eq_filter h',
    length_fresh]

theorem appendNew_union (h' : (l'.map key).Nodup)
    (hroom : l'.length ≤ limit - (l.map key).toFinset.card)
    (hlimit : (l.map key).toFinset.card ≤ limit) :
    appendNew key limit (union key limit l) l' =
      union key limit l ++ l'.filter fun a => key a ∉ (l.map key).toFinset := by
  have hwhole : union key limit l = fresh key ∅ l := by
    rw [union, List.take_of_length_le]
    rw [length_fresh]
    exact hlimit
  have hlength : (fresh key ∅ l).length = (l.map key).toFinset.card := length_fresh
  have hfilter := List.length_filter_le (fun a => decide (key a ∉ (l.map key).toFinset)) l'
  rw [hwhole, appendNew_eq (by omega), toFinset_keys_fresh, fresh_eq_filter h', List.take_of_length_le]
  rw [List.length_append]
  omega

/-- **When only the room that is left is asked for**: the new elements among the first `room` are
    the first `room` new elements exactly when no known element uses up room that a later one needs,
    and both are read in the same way. -/
theorem take_fresh_iff {β : Type} {read read' : α → β} {new : α → Prop} [DecidablePred new]
    {room : ℕ} :
    ((l.take room).filter new).map read = ((l.filter new).take room).map read' ↔
      ((∀ a ∈ l.take room, new a) ∨ ∀ a ∈ l.drop room, ¬ new a) ∧
        ∀ a ∈ l.take room, new a → read a = read' a := by
  have hsplit : (l.filter new).take room = (l.take room).filter new ++
      ((l.drop room).filter new).take (room - ((l.take room).filter new).length) := by
    conv_lhs => rw [← List.take_append_drop room l, List.filter_append, List.take_append]
    rw [List.take_of_length_le
      (le_trans (List.length_filter_le _ _) (by rw [List.length_take]; omega))]
  have hback : (l.drop room).filter new = [] ↔ ∀ a ∈ l.drop room, ¬ new a := by
    simp [List.filter_eq_nil_iff]
  have hsame : ((l.take room).filter new).map read = ((l.take room).filter new).map read' ↔
      ∀ a ∈ l.take room, new a → read a = read' a := by
    rw [List.map_inj_left]
    simp [List.mem_filter]
  rw [hsplit]
  constructor
  · intro h
    have hlength := congrArg List.length h
    rw [List.length_map, List.length_map, List.length_append] at hlength
    have hnone : ((l.drop room).filter new).take
        (room - ((l.take room).filter new).length) = [] :=
      List.length_eq_zero_iff.mp (by omega)
    rw [hnone, List.append_nil] at h
    refine ⟨?_, hsame.mp h⟩
    rcases List.take_eq_nil_iff.mp hnone with hfull | hnil
    · left
      have hle := List.length_filter_le (fun a => decide (new a)) (l.take room)
      rw [List.length_take] at hle
      have hall : ((l.take room).filter new).length = (l.take room).length := by
        rw [List.length_take]
        omega
      intro a ha
      have hmem := List.length_filter_eq_length_iff.mp hall a ha
      simpa using hmem
    · exact Or.inr (hback.mp hnil)
  · rintro ⟨hroom, hread⟩
    rw [List.map_append, hsame.mpr hread]
    rcases hroom with hall | hnone
    · have hfront : (l.take room).filter new = l.take room := by
        rw [List.filter_eq_self]
        simpa using hall
      rw [hfront, List.length_take]
      by_cases hle : room ≤ l.length
      · rw [Nat.min_eq_left hle, Nat.sub_self, List.take_zero, List.map_nil, List.append_nil]
      · rw [List.drop_of_length_le (by omega), List.filter_nil, List.take_nil,
          List.map_nil, List.append_nil]
    · rw [hback.mpr hnone, List.take_nil,
          List.map_nil, List.append_nil]

end RankedUnion
