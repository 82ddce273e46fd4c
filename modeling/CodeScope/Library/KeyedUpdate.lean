import Mathlib.Data.List.Nodup

/-! # Updates from a joined table

`UPDATE … FROM` joins each row of a table with the rows of a second one that have its key, and takes
its values from one of them; which one is not said when there are several. It does not matter when
rows with the same key have the same values, in particular when no key repeats. -/

namespace KeyedUpdate

variable {σ κ ν : Type}

/-- The row that an update takes from those that join. -/
structure Choice (σ : Type) where
  take : List σ → Option σ
  mem_of_take : ∀ {joined : List σ} {s : σ}, take joined = some s → s ∈ joined
  nil_of_take : ∀ {joined : List σ}, take joined = none → joined = []

/-- The first one. -/
def Choice.first : Choice σ where
  take := List.head?
  mem_of_take := List.mem_of_head?
  nil_of_take := List.head?_eq_none_iff.mp

/-- Rows with the key have the same value. -/
def ConsistentAt (key : σ → κ) (value : σ → ν) (source : List σ) (k : κ) : Prop :=
  ∀ s ∈ source, ∀ s' ∈ source, key s = k → key s' = k → value s = value s'

theorem ConsistentAt.of_nodup {key : σ → κ} {source : List σ} {k : κ} (value : σ → ν)
    (part : σ → Bool) (hpart : ∀ s ∈ source, key s = k → part s = true)
    (h : ((source.filter part).map key).Nodup) : ConsistentAt key value source k := by
  intro s hs s' hs' hkey hkey'
  have hmem := List.mem_filter.mpr ⟨hs, hpart s hs hkey⟩
  have hmem' := List.mem_filter.mpr ⟨hs', hpart s' hs' hkey'⟩
  rw [List.inj_on_of_nodup_map h hmem hmem' (hkey.trans hkey'.symm)]

section Lookup

variable [DecidableEq κ] (key : σ → κ) (value : σ → ν)

/-- The value at a key. -/
def lookup (source : List σ) (k : κ) : Option ν := (source.find? fun s => key s = k).map value

/-- The value that an update takes for a row with the key. -/
def chosen (c : Choice σ) (source : List σ) (k : κ) : Option ν :=
  (c.take (source.filter fun s => key s = k)).map value

variable {key value} {source : List σ} {k : κ}

theorem lookup_eq_none : lookup key value source k = none ↔ ∀ s ∈ source, key s ≠ k := by
  simp [lookup]

theorem exists_of_lookup {v : ν} (h : lookup key value source k = some v) :
    ∃ s ∈ source, key s = k ∧ value s = v := by
  obtain ⟨s, hs, hv⟩ := Option.map_eq_some_iff.mp h
  exact ⟨s, List.mem_of_find?_eq_some hs, by simpa using List.find?_some hs, hv⟩

theorem ConsistentAt.lookup_eq {s : σ} (h : ConsistentAt key value source (key s))
    (hs : s ∈ source) : lookup key value source (key s) = some (value s) := by
  cases hfound : lookup key value source (key s) with
  | none => exact absurd rfl (lookup_eq_none.mp hfound s hs)
  | some v =>
      obtain ⟨s', hs', hkey, rfl⟩ := exists_of_lookup hfound
      rw [h s' hs' s hs hkey rfl]

/-- **What an update takes is the value at the key**, whichever row it chooses. -/
theorem ConsistentAt.chosen_eq (h : ConsistentAt key value source k) (c : Choice σ) :
    chosen key value c source k = lookup key value source k := by
  unfold chosen
  cases htake : c.take (source.filter fun s => key s = k) with
  | none =>
      -- nothing joins
      have hnone := List.filter_eq_nil_iff.mp (c.nil_of_take htake)
      have hlookup : lookup key value source k = none :=
        lookup_eq_none.mpr fun s hs => by simpa using hnone s hs
      exact hlookup.symm
  | some s =>
      obtain ⟨hs, hkey⟩ := List.mem_filter.mp (c.mem_of_take htake)
      have hk : key s = k := of_decide_eq_true hkey
      subst hk
      rw [h.lookup_eq hs]
      rfl

end Lookup

end KeyedUpdate
