import Mathlib.Data.List.Perm.Basic
import Mathlib.Data.List.Nodup
import Mathlib.Logic.Function.Basic

/-! # Renaming keys

Two lists of values with keys that hold the same values, in any order, are the same up to a renaming
of the keys. -/

namespace CodeScope.Renaming

variable {α β β' : Type} [DecidableEq β]

/-- Lists that agree on the values in their order. -/
theorem exists_map_eq [Inhabited β'] {l : List (α × β)} {l' : List (α × β')}
    (hvalues : l.map Prod.fst = l'.map Prod.fst) (hkeys : (l.map Prod.snd).Nodup) :
    ∃ f : β → β', l.map (Prod.map id f) = l' := by
  induction l generalizing l' with
  | nil =>
      rw [List.map_nil, eq_comm, List.map_eq_nil_iff] at hvalues
      exact ⟨default, by rw [hvalues, List.map_nil]⟩
  | cons p rest ih =>
      cases l' with
      | nil => simp at hvalues
      | cons p' rest' =>
          rw [List.map_cons, List.map_cons, List.cons.injEq] at hvalues
          rw [List.map_cons, List.nodup_cons] at hkeys
          obtain ⟨f, hf⟩ := ih hvalues.2 hkeys.2
          refine ⟨Function.update f p.2 p'.2, ?_⟩
          have hrest : rest.map (Prod.map id (Function.update f p.2 p'.2)) = rest' := by
            rw [← hf]
            refine List.map_congr_left ?_
            intro q hq
            have hne : q.2 ≠ p.2 := by
              intro heq
              exact hkeys.1 (heq ▸ List.mem_map_of_mem hq)
            rw [Prod.map, Prod.map, Function.update_of_ne hne]
          rw [List.map_cons, hrest, Prod.map, Function.update_self, id, hvalues.1]

/-- **The same values up to a renaming**: distinct keys can be mapped to those of the other list. -/
theorem exists_renaming [Inhabited β'] {l : List (α × β)} {l' : List (α × β')}
    (hvalues : (l.map Prod.fst).Perm (l'.map Prod.fst)) (hkeys : (l.map Prod.snd).Nodup) :
    ∃ f : β → β', (l.map (Prod.map id f)).Perm l' := by
  have hordered : Relation.Comp (fun a b => a = List.map Prod.fst b) List.Perm (l.map Prod.fst) l' := by
    rw [List.eq_map_comp_perm]
    exact hvalues
  obtain ⟨ordered, heq, hperm⟩ := hordered
  obtain ⟨f, hf⟩ := exists_map_eq heq hkeys
  exact ⟨f, hf ▸ hperm⟩

end CodeScope.Renaming
