import Mathlib.Data.List.Nodup
import Mathlib.Data.List.Perm.Subperm

/-! # The first ancestor of a kind, with a cache

Every place has at most one place above it. `First` is the first place of a kind on the way up; a
way that leaves the places, or runs into a cycle, has none. `search` follows the way, keeps the
places it has seen, and stops at a place whose answer a cache knows. -/

namespace AncestorSearch

variable {κ : Type} (next : κ → Option κ) (stop : κ → Prop)

/-- The first place of the kind on the way up from a place, the place itself included. -/
inductive First : κ → κ → Prop
  | here {x : κ} : stop x → First x x
  | up {x y a : κ} : ¬ stop x → next x = some y → First y a → First x a

/-- The answers of the cache are those of a search from the same place. -/
def Sound (cache : κ → Option (Option κ)) : Prop :=
  ∀ x r, cache x = some r → ∀ a, r = some a ↔ First next stop x a

/-- The way up, `none` when the fuel runs out and `some none` when there is no such place. -/
def search [DecidableEq κ] [DecidablePred stop] (cache : κ → Option (Option κ)) :
    ℕ → List κ → κ → Option (Option κ)
  | 0, _, _ => none
  | fuel + 1, visited, x =>
    if x ∈ visited then some none
    else if stop x then some (some x)
    else match cache x with
      | some r => some r
      | none => match next x with
        | none => some none
        | some y => search cache fuel (x :: visited) y

variable {next stop}

variable {x a : κ}

theorem First.stop_of (h : First next stop x a) : stop a := by
  induction h with
  | here hstop => exact hstop
  | up _ _ _ ih => exact ih

theorem First.up_iff {y : κ} (hx : ¬ stop x) (hnext : next x = some y) :
    First next stop x a ↔ First next stop y a := by
  constructor
  · intro h
    cases h with
    | here hstop => exact absurd hstop hx
    | up _ hup hrest =>
        rw [hnext, Option.some.injEq] at hup
        exact hup ▸ hrest
  · exact .up hx hnext

theorem First.here_iff (hx : stop x) : First next stop x a ↔ a = x := by
  constructor
  · intro h
    cases h with
    | here _ => rfl
    | up hnot _ _ => exact absurd hx hnot
  · rintro rfl
    exact .here hx

theorem not_first_of_end (hx : ¬ stop x) (hnext : next x = none) : ¬ First next stop x a := by
  intro h
  cases h with
  | here hstop => exact hx hstop
  | up _ hup _ => simp [hnext] at hup

theorem First.unique {b : κ} (ha : First next stop x a) (hb : First next stop x b) : a = b := by
  induction ha with
  | here hstop => exact ((First.here_iff hstop).mp hb).symm
  | up hnot hnext _ ih => exact ih ((First.up_iff hnot hnext).mp hb)

theorem First.weaken {stop' : κ → Prop} (hsub : ∀ x, stop x → stop' x) (h : First next stop x a) :
    ∃ b, First next stop' x b ∧ (stop b → b = a) := by
  induction h with
  | @here x hstop => exact ⟨x, .here (hsub x hstop), fun _ => rfl⟩
  | @up x y a hnot hnext _ ih =>
      obtain ⟨b, hb, hsame⟩ := ih
      by_cases hx : stop' x
      · exact ⟨x, .here hx, fun hstop => absurd hstop hnot⟩
      · exact ⟨b, .up hx hnext hb, hsame⟩

theorem First.narrow {stop' : κ → Prop} (hsub : ∀ x, stop x → stop' x) (h : First next stop' x a)
    (ha : stop a) : First next stop x a := by
  induction h with
  | here _ => exact .here ha
  | @up x y a hnot hnext _ ih => exact .up (fun hstop => hnot (hsub x hstop)) hnext (ih ha)

theorem not_first_of_closed {S : List κ} (hS : ∀ x ∈ S, ¬ stop x ∧ ∃ y ∈ S, next x = some y)
    (hx : x ∈ S) : ¬ First next stop x a := by
  intro h
  induction h with
  | here hstop => exact (hS _ hx).1 hstop
  | @up x y a _ hnext _ ih =>
      obtain ⟨_, y', hy', hnext'⟩ := hS x hx
      rw [hnext', Option.some.injEq] at hnext
      exact ih (hnext ▸ hy')

variable [DecidableEq κ] [DecidablePred stop]

/-- **The search with a sound cache finds what a fresh look finds**, and its fuel suffices when
    there are fewer places below another one. -/
theorem search_spec {cache : κ → Option (Option κ)} (hcache : Sound next stop cache)
    {places : List κ} (hplaces : ∀ x y, next x = some y → x ∈ places) (fuel : ℕ)
    (visited : List κ) (x : κ) (hnodup : visited.Nodup)
    (hvisited : ∀ z ∈ visited, ¬ stop z ∧ ∃ w, next z = some w ∧ (w ∈ visited ∨ w = x))
    (hfuel : places.length < fuel + visited.length) :
    ∃ r, search next stop cache fuel visited x = some r ∧
      ∀ a, r = some a ↔ First next stop x a := by
  induction fuel generalizing visited x with
  | zero =>
      have hsub : visited ⊆ places := by
        intro z hz
        obtain ⟨_, w, hw, _⟩ := hvisited z hz
        exact hplaces z w hw
      have hle : visited.length ≤ places.length := (hnodup.subperm hsub).length_le
      omega
  | succ fuel ih =>
      rw [search]
      by_cases hx : x ∈ visited
      · -- the places seen so far lead round in a cycle
        refine ⟨none, by rw [if_pos hx], fun a => ⟨by simp, fun h => ?_⟩⟩
        refine absurd h (not_first_of_closed (fun z hz => ⟨(hvisited z hz).1, ?_⟩) hx)
        obtain ⟨_, w, hw, hmem⟩ := hvisited z hz
        refine ⟨w, ?_, hw⟩
        rcases hmem with hmem | rfl
        · exact hmem
        · exact hx
      rw [if_neg hx]
      by_cases hstop : stop x
      · refine ⟨some x, by rw [if_pos hstop], fun a => ?_⟩
        rw [First.here_iff hstop, Option.some.injEq, eq_comm]
      rw [if_neg hstop]
      cases hknown : cache x with
      | some r => exact ⟨r, rfl, hcache x r hknown⟩
      | none =>
          cases hnext : next x with
          | none =>
              exact ⟨none, rfl, fun a => ⟨by simp, fun h => absurd h (not_first_of_end hstop hnext)⟩⟩
          | some y =>
              have hrest : ∀ z ∈ x :: visited, ¬ stop z ∧
                  ∃ w, next z = some w ∧ (w ∈ x :: visited ∨ w = y) := by
                intro z hz
                rcases List.mem_cons.mp hz with rfl | hz
                · exact ⟨hstop, y, hnext, .inr rfl⟩
                obtain ⟨hz', w, hw, hmem⟩ := hvisited z hz
                refine ⟨hz', w, hw, .inl ?_⟩
                rcases hmem with hmem | rfl
                · exact List.mem_cons_of_mem _ hmem
                · exact List.mem_cons_self
              obtain ⟨r, hr, hfirst⟩ := ih (x :: visited) y (List.nodup_cons.mpr ⟨hx, hnodup⟩)
                hrest (by simp only [List.length_cons]; omega)
              exact ⟨r, hr, fun a => (hfirst a).trans (First.up_iff hstop hnext).symm⟩

end AncestorSearch
