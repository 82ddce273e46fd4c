import CodeScope.Library.Text
import Mathlib.Algebra.BigOperators.Group.List.Basic
import Mathlib.Algebra.Order.BigOperators.Group.List
import Mathlib.Data.Nat.Basic

/-! # Proportional allocation

`index_parallel` gives every module a share of the parse workers, by source bytes or, when discovery
reports none, by files: the exact share rounded up, at least one worker and at most all of them. The
products are computed in 128 bits, but the sums of the weights in 64, and they can wrap. -/

namespace CodeScope.Scheduler

open Text (Str str)

def DEFAULT_TOTAL_WORKERS : ℕ := 8

/-- One element of `modules`, as its JSON fields are read. -/
structure ModuleEntry where
  name : Option Str
  files : Option (Fin (2 ^ 64))
  bytes : Option (Fin (2 ^ 64))

/-- `.sum::<u64>()` -/
def sumU64 (l : List (Fin (2 ^ 64))) : ℕ := (l.map (·.val)).sum % 2 ^ 64

def totalFilesSum (modules : List ModuleEntry) : ℕ := max (sumU64 (modules.filterMap (·.files))) 1

def totalBytesSum (modules : List ModuleEntry) : ℕ := sumU64 (modules.filterMap (·.bytes))

/-- `total_workers`, a `u32`, with 0 for the default. -/
def totalWorkers (requested : Fin (2 ^ 32)) : ℕ :=
  if requested.val = 0 then DEFAULT_TOTAL_WORKERS else requested.val

/-- `u128::div_ceil` -/
def divCeil (a b : ℕ) : ℕ := a / b + if 0 < a % b then 1 else 0

/-- The workers of a module of this weight. -/
def allocOf (total weightSum weight : ℕ) : ℕ :=
  if weight = 0 then 1
  else
    let raw := divCeil (weight * total % 2 ^ 128) weightSum
    let narrow := raw % 2 ^ 64
    let a := if narrow < 2 ^ 32 then narrow else total
    max 1 (min a total)

section

variable (modules : List ModuleEntry)

def ModuleEntry.weight (m : ModuleEntry) : ℕ :=
  if 0 < totalBytesSum modules then (m.bytes.map (·.val)).getD 0 else (m.files.map (·.val)).getD 0

def weightSum : ℕ :=
  if 0 < totalBytesSum modules then totalBytesSum modules else totalFilesSum modules

variable (requested : Fin (2 ^ 32))

def ModuleEntry.alloc (m : ModuleEntry) : ℕ :=
  allocOf (totalWorkers requested) (weightSum modules) (m.weight modules)

/-- `allocations`: a module without a name is left out. -/
def allocations : List (Str × ℕ × ℕ) :=
  modules.filterMap fun m => m.name.map fun name =>
    (name, (m.files.map (·.val)).getD 0, m.alloc modules requested)

end

/-! ## What is promised -/

section

variable (modules : List ModuleEntry)

/-- The exact sum of a field that some modules have. -/
def exactSum (field : ModuleEntry → Option (Fin (2 ^ 64))) : ℕ :=
  (modules.map fun m => ((field m).map (·.val)).getD 0).sum

/-- The weight of a module: its bytes where discovery reports any, else its files. -/
def ModuleEntry.exactWeight (m : ModuleEntry) : ℕ :=
  if 0 < exactSum modules (·.bytes) then (m.bytes.map (·.val)).getD 0
  else (m.files.map (·.val)).getD 0

def exactWeightSum : ℕ := (modules.map fun m => m.exactWeight modules).sum

/-- The allocation is fair and in range, and no arithmetic on the way wraps. -/
structure FairAllocation (requested : Fin (2 ^ 32)) : Prop where
  sums : exactSum modules (·.bytes) < 2 ^ 64 ∧ exactSum modules (·.files) < 2 ^ 64
  products : ∀ m ∈ modules, m.weight modules * totalWorkers requested < 2 ^ 128
  divisor : 0 < weightSum modules
  narrowing : ∀ m ∈ modules,
    divCeil (m.weight modules * totalWorkers requested) (weightSum modules) < 2 ^ 32
  range : ∀ a ∈ allocations modules requested, 1 ≤ a.2.2 ∧ a.2.2 ≤ totalWorkers requested
  /-- no module gets less than its exact share rounded up -/
  share : ∀ m ∈ modules, m.exactWeight modules * totalWorkers requested ≤
    m.alloc modules requested * exactWeightSum modules
  ordered : ∀ m ∈ modules, ∀ m' ∈ modules, m.exactWeight modules ≤ m'.exactWeight modules →
    m.alloc modules requested ≤ m'.alloc modules requested
  total : ((allocations modules requested).map (·.2.2)).sum ≤
    totalWorkers requested + modules.length

end

/-! ## Division rounded up -/

theorem le_divCeil_mul (a : ℕ) {b : ℕ} (hb : 0 < b) : a ≤ divCeil a b * b := by
  have hdiv := Nat.div_add_mod a b
  have hlt := Nat.mod_lt a hb
  rw [divCeil, Nat.add_mul, Nat.mul_comm (a / b)]
  split_ifs with hrest
  · omega
  · omega

theorem divCeil_mul_le (a b : ℕ) : divCeil a b * b ≤ a + b := by
  have hdiv := Nat.div_add_mod a b
  rw [divCeil, Nat.add_mul, Nat.mul_comm (a / b)]
  split_ifs with hrest
  · omega
  · omega

theorem divCeil_le {a b c : ℕ} (h : a ≤ c * b) : divCeil a b ≤ c := by
  by_contra hlt
  have hdiv := Nat.div_add_mod a b
  rw [divCeil] at hlt
  split_ifs at hlt with hrest
  · have hc : c ≤ a / b := by omega
    have hmul := Nat.mul_le_mul_left b hc
    rw [Nat.mul_comm b c] at hmul
    omega
  · exact hlt (Nat.div_le_of_le_mul (by rwa [Nat.mul_comm]))

theorem divCeil_mono {a a' : ℕ} (b : ℕ) (h : a ≤ a') : divCeil a b ≤ divCeil a' b := by
  rcases Nat.eq_zero_or_pos b with rfl | hb
  · simp only [divCeil, Nat.div_zero, Nat.mod_zero]
    split_ifs <;> omega
  · exact divCeil_le (Nat.le_trans h (le_divCeil_mul a' hb))

/-! ## One module's share -/

/-- Where nothing wraps, the share is rounded up, with a floor of one. -/
theorem allocOf_eq {total sum weight : ℕ} (hsum : 0 < sum) (hle : weight ≤ sum)
    (hsum_lt : sum < 2 ^ 64) (htotal : 1 ≤ total) (htotal_lt : total < 2 ^ 32) :
    allocOf total sum weight = max 1 (divCeil (weight * total) sum) := by
  have hproduct : weight * total < 2 ^ 128 := by
    calc weight * total ≤ 2 ^ 64 * 2 ^ 32 := Nat.mul_le_mul (by omega) (by omega)
      _ < 2 ^ 128 := by decide
  have hraw : divCeil (weight * total) sum ≤ total :=
    divCeil_le (by rw [Nat.mul_comm total]; exact Nat.mul_le_mul_right total hle)
  rw [allocOf]
  by_cases hzero : weight = 0
  · rw [if_pos hzero, hzero, Nat.zero_mul]
    simp [divCeil]
  · rw [if_neg hzero, Nat.mod_eq_of_lt hproduct]
    dsimp only
    rw [Nat.mod_eq_of_lt (by omega), if_pos (by omega), Nat.min_eq_left hraw]

theorem totalWorkers_bounds (requested : Fin (2 ^ 32)) :
    1 ≤ totalWorkers requested ∧ totalWorkers requested < 2 ^ 32 := by
  have hlt := requested.isLt
  rw [totalWorkers]
  split_ifs with hzero
  · exact ⟨by decide, by decide⟩
  · exact ⟨by omega, hlt⟩

/-! ## The sums -/

theorem sum_filterMap (field : ModuleEntry → Option (Fin (2 ^ 64))) (modules : List ModuleEntry) :
    ((modules.filterMap field).map (·.val)).sum = exactSum modules field := by
  rw [exactSum]
  induction modules with
  | nil => rfl
  | cons m modules ih =>
      rw [List.map_cons, List.sum_cons, ← ih]
      cases hfield : field m with
      | none => rw [List.filterMap_cons_none hfield, Option.map_none, Option.getD_none, Nat.zero_add]
      | some n =>
          rw [List.filterMap_cons_some hfield, List.map_cons, List.sum_cons]
          rfl

theorem sumU64_exact {field : ModuleEntry → Option (Fin (2 ^ 64))} {modules : List ModuleEntry}
    (h : exactSum modules field < 2 ^ 64) :
    sumU64 (modules.filterMap field) = exactSum modules field := by
  rw [sumU64, sum_filterMap, Nat.mod_eq_of_lt h]

section

variable {modules : List ModuleEntry} (hbytes : exactSum modules (·.bytes) < 2 ^ 64)
include hbytes

theorem weight_exact (m : ModuleEntry) : m.weight modules = m.exactWeight modules := by
  rw [ModuleEntry.weight, ModuleEntry.exactWeight, totalBytesSum, sumU64_exact hbytes]

theorem weightSum_exact (hfiles : exactSum modules (·.files) < 2 ^ 64) :
    exactWeightSum modules ≤ weightSum modules ∧ 0 < weightSum modules ∧
      weightSum modules < 2 ^ 64 ∧
      (0 < exactWeightSum modules → weightSum modules = exactWeightSum modules) := by
  rw [weightSum, totalFilesSum, totalBytesSum, sumU64_exact hbytes, sumU64_exact hfiles]
  by_cases hsome : 0 < exactSum modules (·.bytes)
  · have hexact : exactWeightSum modules = exactSum modules (·.bytes) := by
      simp only [exactWeightSum, ModuleEntry.exactWeight, if_pos hsome]
      rfl
    rw [if_pos hsome, hexact]
    exact ⟨Nat.le_refl _, hsome, hbytes, fun _ => rfl⟩
  · have hexact : exactWeightSum modules = exactSum modules (·.files) := by
      simp only [exactWeightSum, ModuleEntry.exactWeight, if_neg hsome]
      rfl
    rw [if_neg hsome, hexact]
    exact ⟨Nat.le_max_left _ _, by omega, by omega, fun hpos => by omega⟩

end

/-! ## The allocation -/

theorem alloc_mem {modules : List ModuleEntry} {requested : Fin (2 ^ 32)} {a : Str × ℕ × ℕ}
    (h : a ∈ allocations modules requested) : ∃ m ∈ modules, a.2.2 = m.alloc modules requested := by
  obtain ⟨m, hm, hsome⟩ := List.mem_filterMap.mp h
  obtain ⟨name, _, rfl⟩ := Option.map_eq_some_iff.mp hsome
  exact ⟨m, hm, rfl⟩

theorem sum_allocations_le (files alloc : ModuleEntry → ℕ) (modules : List ModuleEntry) :
    ((modules.filterMap fun m => m.name.map fun name => (name, files m, alloc m)).map
      (·.2.2)).sum ≤ (modules.map alloc).sum := by
  induction modules with
  | nil => exact Nat.le_refl 0
  | cons m modules ih =>
      rw [List.map_cons, List.sum_cons]
      cases hname : m.name with
      | none =>
          rw [List.filterMap_cons_none (by rw [hname]; rfl)]
          omega
      | some name =>
          rw [List.filterMap_cons_some (by rw [hname]; rfl), List.map_cons, List.sum_cons]
          exact Nat.add_le_add_left ih (alloc m)

theorem sum_rounded_le {α : Type} (alloc weight : α → ℕ) {total sum : ℕ} (l : List α)
    (h : ∀ m ∈ l, alloc m * sum ≤ weight m * total + sum) :
    (l.map alloc).sum * sum ≤ (l.map weight).sum * total + l.length * sum := by
  induction l with
  | nil => simp
  | cons m l ih =>
      have hhere := h m List.mem_cons_self
      have hrest := ih fun m' hm' => h m' (List.mem_cons_of_mem m hm')
      simp only [List.map_cons, List.sum_cons, List.length_cons, Nat.add_mul, Nat.one_mul]
      omega

section Exact

variable {modules : List ModuleEntry} {m : ModuleEntry}

theorem exactWeight_le_sum (hm : m ∈ modules) : m.exactWeight modules ≤ exactWeightSum modules :=
  List.single_le_sum (fun _ _ => Nat.zero_le _) _ (List.mem_map_of_mem hm)

variable (hbytes : exactSum modules (·.bytes) < 2 ^ 64)
  (hfiles : exactSum modules (·.files) < 2 ^ 64) (requested : Fin (2 ^ 32))
include hbytes hfiles

theorem weight_le_sum (hm : m ∈ modules) : m.weight modules ≤ weightSum modules := by
  rw [weight_exact hbytes]
  exact Nat.le_trans (exactWeight_le_sum hm) (weightSum_exact hbytes hfiles).1

theorem share_le_total (hm : m ∈ modules) :
    divCeil (m.exactWeight modules * totalWorkers requested) (weightSum modules) ≤
      totalWorkers requested := by
  refine divCeil_le ?_
  rw [Nat.mul_comm (totalWorkers requested), ← weight_exact hbytes]
  exact Nat.mul_le_mul_right _ (weight_le_sum hbytes hfiles hm)

theorem alloc_exact (hm : m ∈ modules) : m.alloc modules requested =
    max 1 (divCeil (m.exactWeight modules * totalWorkers requested) (weightSum modules)) := by
  obtain ⟨htotal, htotal_lt⟩ := totalWorkers_bounds requested
  obtain ⟨-, hpos, hsum_lt, -⟩ := weightSum_exact hbytes hfiles
  rw [ModuleEntry.alloc, allocOf_eq hpos (weight_le_sum hbytes hfiles hm) hsum_lt htotal htotal_lt,
    weight_exact hbytes]

theorem alloc_mul_le (hm : m ∈ modules) : m.alloc modules requested * weightSum modules ≤
    m.exactWeight modules * totalWorkers requested + weightSum modules := by
  rw [alloc_exact hbytes hfiles requested hm]
  have hceil := divCeil_mul_le (m.exactWeight modules * totalWorkers requested) (weightSum modules)
  rcases Nat.le_total 1 (divCeil (m.exactWeight modules * totalWorkers requested)
    (weightSum modules)) with hone | hone
  · rw [Nat.max_eq_right hone]
    exact hceil
  · rw [Nat.max_eq_left hone, Nat.one_mul]
    exact Nat.le_add_left _ _

theorem sum_alloc_le : ((allocations modules requested).map (·.2.2)).sum ≤
    totalWorkers requested + modules.length := by
  obtain ⟨hsum_le, hpos, -, -⟩ := weightSum_exact hbytes hfiles
  refine Nat.le_trans (sum_allocations_le _ (fun m => m.alloc modules requested) modules) ?_
  have hsum := sum_rounded_le (fun m => m.alloc modules requested)
    (fun m => m.exactWeight modules) modules fun _ hm => alloc_mul_le hbytes hfiles requested hm
  have hshare := Nat.mul_le_mul_right (totalWorkers requested) hsum_le
  refine Nat.le_of_mul_le_mul_right ?_ hpos
  calc _ ≤ exactWeightSum modules * totalWorkers requested +
        modules.length * weightSum modules := hsum
    _ ≤ weightSum modules * totalWorkers requested +
        modules.length * weightSum modules := Nat.add_le_add_right hshare _
    _ = (totalWorkers requested + modules.length) * weightSum modules := by
      rw [Nat.add_mul, Nat.mul_comm (weightSum modules)]

end Exact

/-- **The allocation is fair and in range, and nothing wraps, exactly when the weights add up to
    less than `2 ^ 64`, the bytes as well as the files.** -/
theorem fair_allocation_iff (modules : List ModuleEntry) (requested : Fin (2 ^ 32)) :
    FairAllocation modules requested ↔
      exactSum modules (·.bytes) < 2 ^ 64 ∧ exactSum modules (·.files) < 2 ^ 64 := by
  refine ⟨fun h => h.sums, ?_⟩
  rintro ⟨hbytes, hfiles⟩
  obtain ⟨htotal, htotal_lt⟩ := totalWorkers_bounds requested
  obtain ⟨-, hpos, hsum_lt, hsum_eq⟩ := weightSum_exact hbytes hfiles
  exact
    { sums := ⟨hbytes, hfiles⟩
      products := fun m hm => by
        have hle := weight_le_sum hbytes hfiles hm
        calc m.weight modules * totalWorkers requested
            ≤ 2 ^ 64 * 2 ^ 32 := Nat.mul_le_mul (by omega) (by omega)
          _ < 2 ^ 128 := by decide
      divisor := hpos
      narrowing := fun m hm => by
        rw [weight_exact hbytes]
        exact Nat.lt_of_le_of_lt (share_le_total hbytes hfiles requested hm) htotal_lt
      range := fun a ha => by
        obtain ⟨m, hm, heq⟩ := alloc_mem ha
        have hupper := share_le_total hbytes hfiles requested hm
        rw [heq, alloc_exact hbytes hfiles requested hm]
        omega
      share := fun m hm => by
        rcases Nat.eq_zero_or_pos (exactWeightSum modules) with hzero | hsome
        · have hnone : m.exactWeight modules = 0 := by
            have hbound := exactWeight_le_sum hm
            omega
          rw [hnone, Nat.zero_mul]
          exact Nat.zero_le _
        · rw [alloc_exact hbytes hfiles requested hm, ← hsum_eq hsome]
          exact Nat.le_trans (le_divCeil_mul _ hpos)
            (Nat.mul_le_mul_right _ (Nat.le_max_right _ _))
      ordered := fun m hm m' hm' hlt => by
        have hmono := divCeil_mono (weightSum modules)
          (Nat.mul_le_mul_right (totalWorkers requested) hlt)
        rw [alloc_exact hbytes hfiles requested hm, alloc_exact hbytes hfiles requested hm']
        omega
      total := sum_alloc_le hbytes hfiles requested }

/-- Two modules whose bytes wrap the sum to 1: both get all four workers, two more than fair. -/
def sparseModules : List ModuleEntry :=
  [⟨some (str "a"), some 1, some ⟨2 ^ 64 - 1, by decide⟩⟩, ⟨some (str "b"), some 1, some 2⟩]

theorem sparse_modules_unfair : ¬ FairAllocation sparseModules 4 ∧
    (allocations sparseModules 4).map (·.2.2) = [4, 4] := by
  refine ⟨fun h => absurd h.total ?_, by decide +kernel⟩
  decide +kernel

end CodeScope.Scheduler

