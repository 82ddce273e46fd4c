import Mathlib.Data.List.MinMax

/-! # Collapsing duplicate rows

`DELETE FROM t WHERE w AND id NOT IN (SELECT MIN(id) FROM t WHERE w GROUP BY key)`: of the rows that
meet `w` only those stay whose id is the least in its group. `SELECT MAX(id)` is the same with the
order turned round. -/

namespace Collapse

variable {ρ κ ι : Type} [DecidableEq κ] [LinearOrder ι]

/-- The ids that stay. -/
def Kept (rank : ρ → ι) (key : ρ → κ) (w : ρ → Bool) (rows : List ρ) (i : ι) : Prop :=
  ∃ g ∈ rows, w g = true ∧ rank g = i ∧ ∀ r ∈ rows, w r = true → key r = key g → i ≤ rank r

instance (rank : ρ → ι) (key : ρ → κ) (w : ρ → Bool) (rows : List ρ) (i : ι) :
    Decidable (Kept rank key w rows i) := by
  unfold Kept
  infer_instance

def collapse (rank : ρ → ι) (key : ρ → κ) (w : ρ → Bool) (rows : List ρ) : List ρ :=
  rows.filter fun r => !w r || Kept rank key w rows (rank r)

variable {rank : ρ → ι} {key : ρ → κ} {w : ρ → Bool} {rows : List ρ} {r : ρ}

theorem mem_collapse :
    r ∈ collapse rank key w rows ↔ r ∈ rows ∧ (w r = true → Kept rank key w rows (rank r)) := by
  rw [collapse, List.mem_filter]
  cases w r <;> simp

theorem exists_least (rank : ρ → ι) (key : ρ → κ) (h : r ∈ rows) (hw : w r = true) :
    ∃ g ∈ rows, w g = true ∧ key g = key r ∧
      ∀ r' ∈ rows, w r' = true → key r' = key r → rank g ≤ rank r' := by
  have hmem : r ∈ rows.filter fun r' => w r' && key r' = key r :=
    List.mem_filter.mpr ⟨h, by simp [hw]⟩
  cases hleast : (rows.filter fun r' => w r' && key r' = key r).argmin rank with
  | none =>
      rw [List.argmin_eq_none.mp hleast] at hmem
      exact absurd hmem List.not_mem_nil
  | some g =>
      obtain ⟨hg, hgroup⟩ := List.mem_filter.mp (List.argmin_mem hleast)
      rw [Bool.and_eq_true, decide_eq_true_eq] at hgroup
      refine ⟨g, hg, hgroup.1, hgroup.2, fun r' hr' hw' hkey => ?_⟩
      exact List.le_of_mem_argmin (List.mem_filter.mpr ⟨hr', by simp [hw', hkey]⟩) hleast

theorem mem_collapse_of_least (h : r ∈ rows) (hw : w r = true)
    (hleast : ∀ r' ∈ rows, w r' = true → key r' = key r → rank r ≤ rank r') :
    r ∈ collapse rank key w rows :=
  mem_collapse.mpr ⟨h, fun _ => ⟨r, h, hw, rfl, hleast⟩⟩

theorem eq_of_mem_collapse {a b : ρ} (hinj : ∀ x ∈ rows, ∀ y ∈ rows, rank x = rank y → x = y)
    (ha : a ∈ collapse rank key w rows) (hb : b ∈ collapse rank key w rows) (hwa : w a = true)
    (hwb : w b = true) (hkey : key a = key b) : a = b := by
  have hle : ∀ {x y : ρ}, x ∈ collapse rank key w rows → y ∈ rows → w x = true → w y = true →
      key y = key x → rank x ≤ rank y := by
    intro x y hx hy hwx hwy hsame
    obtain ⟨hrow, hkept⟩ := mem_collapse.mp hx
    obtain ⟨g, hg, -, hrank, hleast⟩ := hkept hwx
    obtain rfl := hinj g hg x hrow hrank
    exact hleast y hy hwy hsame
  have hrowa := (mem_collapse.mp ha).1
  have hrowb := (mem_collapse.mp hb).1
  exact hinj a hrowa b hrowb
    (le_antisymm (hle ha hrowb hwa hwb hkey.symm) (hle hb hrowa hwb hwa hkey))

theorem kept_collapse {κ' : Type} [DecidableEq κ'] {key' : ρ → κ'}
    (hcoarser : ∀ a b, w a = true → w b = true → key a = key b → key' a = key' b) {i : ι} :
    Kept rank key' w (collapse rank key w rows) i ↔ Kept rank key' w rows i := by
  constructor
  · rintro ⟨g, hg, hw, rfl, hleast⟩
    refine ⟨g, (mem_collapse.mp hg).1, hw, rfl, fun r hr hwr hkey => ?_⟩
    obtain ⟨m, hm, hwm, hsame, hle⟩ := exists_least rank key hr hwr
    have hstays : m ∈ collapse rank key w rows :=
      mem_collapse_of_least hm hwm fun r' hr' hw' hkey' => hle r' hr' hw' (hkey'.trans hsame)
    exact (hleast m hstays hwm ((hcoarser m r hwm hwr hsame).trans hkey)).trans (hle r hr hwr rfl)
  · rintro ⟨g, hg, hw, rfl, hleast⟩
    refine ⟨g, mem_collapse_of_least hg hw fun r hr hwr hkey => ?_, hw, rfl, fun r hr hwr hkey => ?_⟩
    · exact hleast r hr hwr (hcoarser r g hwr hw hkey)
    · exact hleast r (mem_collapse.mp hr).1 hwr hkey

omit [DecidableEq κ] in
theorem Kept.finer {κ' : Type} [DecidableEq κ'] {key' : ρ → κ'}
    (hcoarser : ∀ a b, w a = true → w b = true → key a = key b → key' a = key' b) {i : ι}
    (h : Kept rank key' w rows i) : Kept rank key w rows i := by
  obtain ⟨g, hg, hw, rfl, hleast⟩ := h
  exact ⟨g, hg, hw, rfl, fun r hr hwr hkey => hleast r hr hwr (hcoarser r g hwr hw hkey)⟩

/-- **Collapsing by a finer key first makes no difference.** -/
theorem collapse_collapse {κ' : Type} [DecidableEq κ'] {key' : ρ → κ'}
    (hcoarser : ∀ a b, w a = true → w b = true → key a = key b → key' a = key' b) :
    collapse rank key' w (collapse rank key w rows) = collapse rank key' w rows := by
  rw [collapse]
  simp only [kept_collapse hcoarser]
  rw [collapse, List.filter_filter, collapse]
  refine List.filter_congr fun r _ => ?_
  cases hw : w r with
  | false => rfl
  | true =>
      by_cases hkept : Kept rank key' w rows (rank r)
      · simp [hkept, hkept.finer hcoarser]
      · simp [hkept]

/-- **Collapsing twice is collapsing once.** -/
theorem collapse_idem : collapse rank key w (collapse rank key w rows) = collapse rank key w rows :=
  collapse_collapse fun _ _ _ _ h => h

omit [DecidableEq κ] in
theorem kept_map {f : ρ → ρ} (hrank : ∀ r ∈ rows, rank (f r) = rank r)
    (hw : ∀ r ∈ rows, w (f r) = w r) {key' : ρ → κ} (hkey : ∀ r ∈ rows, key (f r) = key' r) {i : ι} :
    Kept rank key w (rows.map f) i ↔ Kept rank key' w rows i := by
  simp only [Kept, List.mem_map, exists_exists_and_eq_and, forall_exists_index, and_imp,
    forall_apply_eq_imp_iff₂]
  refine exists_congr fun g => and_congr_right fun hg => ?_
  rw [hw g hg, hrank g hg]
  refine and_congr_right fun _ => and_congr_right fun _ => forall₂_congr fun r hr => ?_
  rw [hw r hr, hrank r hr, hkey r hr, hkey g hg]

theorem mem_collapse_of_other (hw : w r = false) : r ∈ collapse rank key w rows ↔ r ∈ rows := by
  rw [mem_collapse, hw]
  simp

end Collapse
