import CodeScope.Scheduler.ChunkPlan
import CodeScope.Store.Records

/-! # The interface implementation index

`loadDispatchIndex`, its first two parts: the implementations that the visitors recorded, and those
that the method sets of the whole project show. A scan delivers the records in the order of the
list; the hash maps hand out their keys in any order. -/

namespace CodeScope.Resolver

open Text (Str str)
open Scheduler (HashOrder)
open Store (RecordRow RecordKind)

/-! ## Records -/

section Records

variable (project : ℕ) (records : List RecordRow)

/-- The records of the project with the kind. -/
def recordsOfKind (kind : RecordKind) : List RecordRow :=
  records.filter fun row => row.project = project ∧ row.record.kind = kind

/-- The implementations in `InterfaceImpl` records: type and interface. -/
def recordedImpls : List (Str × Str) :=
  ((recordsOfKind project records .interfaceImpl).filter fun row =>
      row.record.name ≠ [] ∧ row.record.typeName ≠ []).map
    fun row => (row.record.name, row.record.typeName)

def ifaceNames : List Str :=
  ((recordsOfKind project records .interface).map (·.record.name)).filter (· ≠ [])

/-- A qualified name cut at its first dot, when both parts are there. -/
def splitMethod (qualifiedName : Str) : Option (Str × Str) :=
  let typeName := qualifiedName.takeWhile (· ≠ '.')
  let method := (qualifiedName.dropWhile (· ≠ '.')).tail
  if '.' ∉ qualifiedName then none
  else if typeName = [] ∨ method = [] then none
  else some (typeName, method)

/-- The types and methods of the method records. -/
def recordedMethods : List (Str × Str) :=
  ((recordsOfKind project records .method).filter fun row =>
      row.record.qualifiedName ≠ []).filterMap fun row => splitMethod row.record.qualifiedName

end Records

/-! ## The index -/

/-- The second parts under a first one. -/
def under (pairs : List (Str × Str)) (key : Str) : List Str :=
  (pairs.filter fun p => p.1 = key).map (·.2)

/-- The keys of a map that the pairs are pushed into. -/
def keysOf (pairs : List (Str × Str)) : List Str := (pairs.map (·.1)).dedup

/-- An implementation is added unless it is there. -/
def addImpl (impls : List Str) (stype : Str) : List Str :=
  if stype ∈ impls then impls else impls ++ [stype]

section Index

variable (hash : HashOrder) (project : ℕ) (records : List RecordRow)

def ifaceMethods : List (Str × Str) :=
  (recordedMethods project records).filter fun p => p.1 ∈ ifaceNames project records

def structMethods : List (Str × Str) :=
  (recordedMethods project records).filter fun p => p.1 ∉ ifaceNames project records

/-- The types whose methods include all of the interface's. -/
def methodSetImpls (iface : Str) : List Str :=
  let imethods := under (ifaceMethods project records) iface
  (hash.order (keysOf (structMethods project records))).filter fun stype =>
    stype ≠ iface ∧ imethods.all (· ∈ under (structMethods project records) stype)

/-- `interface_impl_index_` after the scan of the `InterfaceImpl` records. -/
def scannedIndex (iface : Str) : List Str :=
  under ((recordedImpls project records).map Prod.swap) iface

/-- `interface_impl_index_` -/
def loadDispatchIndex : Str → List Str :=
  (hash.order (keysOf (ifaceMethods project records))).foldl
    (fun index iface =>
      if under (ifaceMethods project records) iface = [] then index
      else
        Function.update index iface
          ((methodSetImpls hash project records iface).foldl addImpl (index iface)))
    (scannedIndex project records)

end Index

/-! ## What a type implements -/

section Implements

variable (project : ℕ) (records : List RecordRow)

/-- A record says that the type implements the interface. -/
def ImplRecorded (stype iface : Str) : Prop :=
  ∃ row ∈ records, row.project = project ∧ row.record.kind = .interfaceImpl ∧
    row.record.name = stype ∧ row.record.typeName = iface

/-- A record declares the interface. -/
def Declared (iface : Str) : Prop :=
  ∃ row ∈ records, row.project = project ∧ row.record.kind = .interface ∧ row.record.name = iface

/-- A record of a method has the type in front of the first dot of its qualified name. -/
def HasMethod (typeName method : Str) : Prop :=
  '.' ∉ typeName ∧ ∃ row ∈ records, row.project = project ∧ row.record.kind = .method ∧
    row.record.qualifiedName = typeName ++ '.' :: method

/-- The type has all the methods of a declared interface, by the methods that `has` lets count. -/
@[mk_iff] structure ShowsMethods (has : Str → Str → Prop) (stype iface : Str) : Prop where
  declared : Declared project records iface
  some_method : ∃ m, has iface m
  not_interface : ¬ Declared project records stype
  some_own : ∃ m, has stype m
  all_methods : ∀ m, has iface m → has stype m

/-- What the index lists: names are not empty. -/
def Implements (stype iface : Str) : Prop :=
  stype ≠ [] ∧ iface ≠ [] ∧ ImplRecorded project records stype iface ∨
    ShowsMethods project records
      (fun t m => t ≠ [] ∧ m ≠ [] ∧ HasMethod project records t m) stype iface

end Implements

/-! ## The parts of the index -/

section Parts

variable {project : ℕ} {records : List RecordRow} {stype iface method : Str}

theorem mem_under {pairs : List (Str × Str)} {key value : Str} :
    value ∈ under pairs key ↔ (key, value) ∈ pairs := by
  rw [under, List.mem_map]
  constructor
  · rintro ⟨p, hp, rfl⟩
    obtain ⟨hmem, hkey⟩ := List.mem_filter.mp hp
    obtain rfl := of_decide_eq_true hkey
    exact hmem
  · intro hmem
    exact ⟨(key, value), List.mem_filter.mpr ⟨hmem, decide_eq_true rfl⟩, rfl⟩

theorem mem_keysOf {pairs : List (Str × Str)} {key : Str} :
    key ∈ keysOf pairs ↔ ∃ value, (key, value) ∈ pairs := by
  rw [keysOf, List.mem_dedup, List.mem_map]
  constructor
  · rintro ⟨⟨_, value⟩, hp, rfl⟩
    exact ⟨value, hp⟩
  · rintro ⟨value, hp⟩
    exact ⟨(key, value), hp, rfl⟩

theorem mem_recordsOfKind {kind : RecordKind} {row : RecordRow} :
    row ∈ recordsOfKind project records kind ↔
      row ∈ records ∧ row.project = project ∧ row.record.kind = kind := by
  rw [recordsOfKind, List.mem_filter, decide_eq_true_eq]

theorem mem_scannedIndex :
    stype ∈ scannedIndex project records iface ↔
      stype ≠ [] ∧ iface ≠ [] ∧ ImplRecorded project records stype iface := by
  rw [scannedIndex, mem_under, List.mem_map]
  constructor
  · rintro ⟨⟨s, i⟩, hp, hswap⟩
    obtain ⟨rfl, rfl⟩ := Prod.mk.inj hswap
    obtain ⟨row, hrow, hpair⟩ := List.mem_map.mp hp
    obtain ⟨hmem, hnamed⟩ := List.mem_filter.mp hrow
    obtain ⟨rfl, rfl⟩ := Prod.mk.inj hpair
    obtain ⟨hname, htype⟩ := of_decide_eq_true hnamed
    obtain ⟨hthere, hproject, hkind⟩ := mem_recordsOfKind.mp hmem
    exact ⟨hname, htype, row, hthere, hproject, hkind, rfl, rfl⟩
  · rintro ⟨hname, htype, row, hthere, hproject, hkind, rfl, rfl⟩
    refine ⟨(row.record.name, row.record.typeName), List.mem_map.mpr ⟨row, ?_, rfl⟩, rfl⟩
    exact List.mem_filter.mpr ⟨mem_recordsOfKind.mpr ⟨hthere, hproject, hkind⟩,
      decide_eq_true ⟨hname, htype⟩⟩

theorem mem_ifaceNames :
    iface ∈ ifaceNames project records ↔ iface ≠ [] ∧ Declared project records iface := by
  rw [ifaceNames, List.mem_filter, List.mem_map, decide_eq_true_eq]
  constructor
  · rintro ⟨⟨row, hrow, rfl⟩, hname⟩
    obtain ⟨hthere, hproject, hkind⟩ := mem_recordsOfKind.mp hrow
    exact ⟨hname, row, hthere, hproject, hkind, rfl⟩
  · rintro ⟨hname, row, hthere, hproject, hkind, rfl⟩
    exact ⟨⟨row, mem_recordsOfKind.mpr ⟨hthere, hproject, hkind⟩, rfl⟩, hname⟩

/-- **The cut is at the first dot.** -/
theorem splitMethod_eq_some {q : Str} :
    splitMethod q = some (stype, method) ↔
      '.' ∉ stype ∧ q = stype ++ '.' :: method ∧ stype ≠ [] ∧ method ≠ [] := by
  simp only [splitMethod]
  constructor
  · intro h
    split_ifs at h with hdot hempty
    obtain ⟨rfl, rfl⟩ := Prod.mk.inj (Option.some.inj h)
    rw [not_or] at hempty
    have hrest : q.dropWhile (· ≠ '.') ≠ [] := by
      rw [Ne, List.dropWhile_eq_nil_iff]
      intro hall
      exact absurd (hall '.' hdot) (by simp)
    have hhead : (q.dropWhile (· ≠ '.')).head hrest = '.' := by
      have hnot := List.head_dropWhile_not (fun c => decide (c ≠ '.')) hrest
      simpa using hnot
    have hcons : q.dropWhile (· ≠ '.') = '.' :: (q.dropWhile (· ≠ '.')).tail := by
      conv_lhs => rw [← List.cons_head_tail hrest, hhead]
    have hsplit : q.takeWhile (· ≠ '.') ++ q.dropWhile (· ≠ '.') = q :=
      List.takeWhile_append_dropWhile
    refine ⟨?_, ?_, hempty.1, hempty.2⟩
    · intro hmem
      have hne := List.mem_takeWhile_imp hmem
      exact absurd hne (by simp)
    · rw [hcons] at hsplit
      exact hsplit.symm
  · rintro ⟨hdot, rfl, hstype, hmethod⟩
    have hne : ∀ c ∈ stype, (decide (c ≠ '.')) = true := by
      intro c hc
      exact decide_eq_true fun heq => hdot (heq ▸ hc)
    have htake : (stype ++ '.' :: method).takeWhile (· ≠ '.') = stype := by
      rw [List.takeWhile_append_of_pos hne]
      simp
    have hdrop : (stype ++ '.' :: method).dropWhile (· ≠ '.') = '.' :: method := by
      rw [List.dropWhile_append_of_pos hne]
      simp
    rw [htake, hdrop]
    simp [hstype, hmethod]

theorem mem_recordedMethods :
    (stype, method) ∈ recordedMethods project records ↔
      stype ≠ [] ∧ method ≠ [] ∧ HasMethod project records stype method := by
  rw [recordedMethods, List.mem_filterMap]
  constructor
  · rintro ⟨row, hrow, hsplit⟩
    obtain ⟨hdot, hname, hstype, hmethod⟩ := splitMethod_eq_some.mp hsplit
    obtain ⟨hthere, hproject, hkind⟩ := mem_recordsOfKind.mp (List.mem_of_mem_filter hrow)
    exact ⟨hstype, hmethod, hdot, row, hthere, hproject, hkind, hname⟩
  · rintro ⟨hstype, hmethod, hdot, row, hthere, hproject, hkind, hname⟩
    refine ⟨row, List.mem_filter.mpr ⟨mem_recordsOfKind.mpr ⟨hthere, hproject, hkind⟩, ?_⟩,
      splitMethod_eq_some.mpr ⟨hdot, hname, hstype, hmethod⟩⟩
    rw [hname]
    simp

end Parts

/-! ## The loops -/

/-- Adding types one by one: the new ones come behind, each once. -/
theorem exists_foldl_addImpl (l impls : List Str) :
    ∃ added, l.foldl addImpl impls = impls ++ added ∧ added.Nodup ∧
      ∀ s, s ∈ added ↔ s ∈ l ∧ s ∉ impls := by
  induction l generalizing impls with
  | nil => exact ⟨[], by simp, List.nodup_nil, by simp⟩
  | cons a rest ih =>
      rw [List.foldl_cons, addImpl]
      by_cases ha : a ∈ impls
      · obtain ⟨added, heq, hnodup, hmem⟩ := ih impls
        rw [if_pos ha]
        refine ⟨added, heq, hnodup, ?_⟩
        intro s
        rw [hmem, List.mem_cons]
        constructor
        · rintro ⟨hs, hnot⟩
          exact ⟨.inr hs, hnot⟩
        · rintro ⟨rfl | hs, hnot⟩
          · exact absurd ha hnot
          · exact ⟨hs, hnot⟩
      · obtain ⟨added, heq, hnodup, hmem⟩ := ih (impls ++ [a])
        rw [if_neg ha]
        refine ⟨a :: added, by rw [heq, List.append_assoc]; rfl, ?_, ?_⟩
        · refine List.nodup_cons.mpr ⟨?_, hnodup⟩
          intro hadded
          exact ((hmem a).mp hadded).2 (List.mem_append_right _ (List.mem_singleton_self a))
        · intro s
          rw [List.mem_cons, hmem, List.mem_cons, List.mem_append, List.mem_singleton, not_or]
          constructor
          · rintro (rfl | ⟨hs, hnot, -⟩)
            · exact ⟨.inl rfl, ha⟩
            · exact ⟨.inr hs, hnot⟩
          · rintro ⟨rfl | hs, hnot⟩
            · exact .inl rfl
            · by_cases hsa : s = a
              · exact .inl hsa
              · exact .inr ⟨hs, hnot, hsa⟩

/-- A loop that rewrites each entry once, unless it passes over it. -/
theorem foldl_update_apply {β : Type} {skip : Str → Prop} [DecidablePred skip] (f : Str → β → β)
    {keys : List Str} (hnodup : keys.Nodup) (index : Str → β) (key : Str) :
    (keys.foldl (fun index k =>
        if skip k then index else Function.update index k (f k (index k))) index) key =
      if key ∈ keys ∧ ¬ skip key then f key (index key) else index key := by
  induction keys generalizing index with
  | nil => simp
  | cons k rest ih =>
      obtain ⟨hk, hrest⟩ := List.nodup_cons.mp hnodup
      rw [List.foldl_cons, ih hrest]
      by_cases hkey : key = k
      · subst hkey
        by_cases hskip : skip key
        · simp [hskip]
        · simp [hk, hskip]
      · by_cases hskip : skip k
        · simp [hkey, hskip]
        · simp [hkey, hskip]

section Exact

variable {hash : HashOrder} {project : ℕ} {records : List RecordRow} {stype iface method : Str}

theorem mem_ifaceMethods :
    (iface, method) ∈ ifaceMethods project records ↔
      Declared project records iface ∧
        iface ≠ [] ∧ method ≠ [] ∧ HasMethod project records iface method := by
  rw [ifaceMethods, List.mem_filter, mem_recordedMethods, decide_eq_true_eq, mem_ifaceNames]
  tauto

theorem mem_structMethods :
    (stype, method) ∈ structMethods project records ↔
      ¬ Declared project records stype ∧
        stype ≠ [] ∧ method ≠ [] ∧ HasMethod project records stype method := by
  rw [structMethods, List.mem_filter, mem_recordedMethods, decide_eq_true_eq, mem_ifaceNames]
  tauto

/-- **The types of the method-set pass are those that show all the methods.** -/
theorem mem_methodSetImpls (hmethod : under (ifaceMethods project records) iface ≠ []) :
    stype ∈ methodSetImpls hash project records iface ↔
      ShowsMethods project records
        (fun t m => t ≠ [] ∧ m ≠ [] ∧ HasMethod project records t m) stype iface := by
  obtain ⟨m₀, hm₀⟩ := List.exists_mem_of_ne_nil _ hmethod
  obtain ⟨hdeclared, hm₀⟩ := mem_ifaceMethods.mp (mem_under.mp hm₀)
  rw [methodSetImpls, List.mem_filter, (hash.perm _).mem_iff, mem_keysOf, decide_eq_true_eq,
    List.all_eq_true]
  constructor
  · rintro ⟨⟨m, hm⟩, -, hall⟩
    obtain ⟨hstruct, hown⟩ := mem_structMethods.mp hm
    refine ⟨hdeclared, ⟨m₀, hm₀⟩, hstruct, ⟨m, hown⟩, ?_⟩
    intro m' hm'
    have hthere := hall m' (mem_under.mpr (mem_ifaceMethods.mpr ⟨hdeclared, hm'⟩))
    exact (mem_structMethods.mp (mem_under.mp (of_decide_eq_true hthere))).2
  · rintro ⟨-, -, hstruct, ⟨m, hown⟩, hall⟩
    refine ⟨⟨m, mem_structMethods.mpr ⟨hstruct, hown⟩⟩, ?_, ?_⟩
    · rintro rfl
      exact hstruct hdeclared
    · intro m' hm'
      have hother := hall m' (mem_ifaceMethods.mp (mem_under.mp hm')).2
      exact decide_eq_true (mem_under.mpr (mem_structMethods.mpr ⟨hstruct, hother⟩))

/-- The entry of an interface: what the scan has put there, and the types of the method-set pass
    if it reaches the interface. -/
theorem loadDispatchIndex_apply :
    loadDispatchIndex hash project records iface =
      if under (ifaceMethods project records) iface = [] then scannedIndex project records iface
      else (methodSetImpls hash project records iface).foldl addImpl
        (scannedIndex project records iface) := by
  have hnodup : (hash.order (keysOf (ifaceMethods project records))).Nodup :=
    (hash.perm _).nodup_iff.mpr (List.nodup_dedup _)
  rw [loadDispatchIndex, foldl_update_apply (fun iface impls =>
    (methodSetImpls hash project records iface).foldl addImpl impls) hnodup]
  by_cases hnone : under (ifaceMethods project records) iface = []
  · rw [if_neg (fun h => h.2 hnone), if_pos hnone]
  · have hkey : iface ∈ hash.order (keysOf (ifaceMethods project records)) := by
      obtain ⟨m, hm⟩ := List.exists_mem_of_ne_nil _ hnone
      exact (hash.perm _).mem_iff.mpr (mem_keysOf.mpr ⟨m, mem_under.mp hm⟩)
    rw [if_pos ⟨hkey, hnone⟩, if_neg hnone]

/-- The method-set pass adds types behind those that were recorded, none of them again. -/
theorem exists_loadDispatchIndex_eq :
    ∃ added, loadDispatchIndex hash project records iface =
        scannedIndex project records iface ++ added ∧ added.Nodup ∧
      ∀ s, s ∈ added ↔ ShowsMethods project records
        (fun t m => t ≠ [] ∧ m ≠ [] ∧ HasMethod project records t m) s iface ∧
          s ∉ scannedIndex project records iface := by
  rw [loadDispatchIndex_apply]
  by_cases hnone : under (ifaceMethods project records) iface = []
  · rw [if_pos hnone]
    refine ⟨[], (List.append_nil _).symm, List.nodup_nil, ?_⟩
    intro s
    refine iff_of_false List.not_mem_nil ?_
    rintro ⟨⟨hdeclared, ⟨m, hm⟩, -, -, -⟩, -⟩
    have hmem := mem_under.mpr (mem_ifaceMethods.mpr ⟨hdeclared, hm⟩)
    rw [hnone] at hmem
    exact List.not_mem_nil hmem
  · rw [if_neg hnone]
    obtain ⟨added, heq, hnodup, hmem⟩ := exists_foldl_addImpl
      (methodSetImpls hash project records iface) (scannedIndex project records iface)
    refine ⟨added, heq, hnodup, ?_⟩
    intro s
    rw [hmem, mem_methodSetImpls hnone]

theorem mem_loadDispatchIndex :
    stype ∈ loadDispatchIndex hash project records iface ↔
      Implements project records stype iface := by
  obtain ⟨added, heq, -, hmem⟩ := @exists_loadDispatchIndex_eq hash project records iface
  rw [heq, List.mem_append, hmem, Implements, ← mem_scannedIndex]
  tauto

end Exact

/-- **The index lists exactly the implementations**, in every order of the records, and the
    method-set pass adds no type twice. -/
theorem loadDispatchIndex_exact (hash : HashOrder) (project : ℕ) (records : List RecordRow) :
    (∀ stype iface, stype ∈ loadDispatchIndex hash project records iface ↔
        Implements project records stype iface) ∧
      (∀ (hash' : HashOrder) (records' : List RecordRow), records.Perm records' →
        ∀ stype iface, stype ∈ loadDispatchIndex hash' project records' iface ↔
          stype ∈ loadDispatchIndex hash project records iface) ∧
      ∀ iface, ∃ added, loadDispatchIndex hash project records iface =
          scannedIndex project records iface ++ added ∧
        added.Nodup ∧ ∀ s ∈ added, s ∉ scannedIndex project records iface := by
  refine ⟨fun _ _ => mem_loadDispatchIndex, ?_, ?_⟩
  · intro hash' records' hperm stype iface
    rw [mem_loadDispatchIndex, mem_loadDispatchIndex]
    simp only [Implements, ImplRecorded, showsMethods_iff, Declared, HasMethod, hperm.mem_iff]
  · intro iface
    obtain ⟨added, heq, hnodup, hmem⟩ := @exists_loadDispatchIndex_eq hash project records iface
    exact ⟨added, heq, hnodup, fun s hs => ((hmem s).mp hs).2⟩

/-- A record with the fields that the index reads. -/
def indexedRecord (kind : RecordKind) (name qualifiedName typeName : Str) : RecordRow where
  project := 1
  filePath := str "shapes.go"
  record := { Store.functionRecord name 0 with
    kind := kind, qualifiedName := qualifiedName, typeName := typeName }

/-- An interface and a type with a method that has no name. -/
def namelessMethods : List RecordRow :=
  [indexedRecord .interface (str "Shape") (str "Shape") [],
    indexedRecord .method [] (str "Shape.") [], indexedRecord .method [] (str "Box.") []]

/-- The order in which the names came. -/
def insertionOrder : HashOrder := ⟨id, fun keys => .refl keys⟩

/-- Records without a name are passed over: neither the implementation recorded for one nor the
    methods without a name make an implementation. -/
theorem nameless_not_listed :
    (ImplRecorded 1 [indexedRecord .interfaceImpl [] [] (str "Shape")] [] (str "Shape") ∧
      [] ∉ loadDispatchIndex insertionOrder 1
        [indexedRecord .interfaceImpl [] [] (str "Shape")] (str "Shape")) ∧
      ShowsMethods 1 namelessMethods (HasMethod 1 namelessMethods) (str "Box") (str "Shape") ∧
      str "Box" ∉ loadDispatchIndex insertionOrder 1 namelessMethods (str "Shape") := by
  have hrecorded : recordedMethods 1 namelessMethods = [] := by decide
  have hshape : ∀ m, HasMethod 1 namelessMethods (str "Shape") m → m = [] := by
    intro m hm
    by_contra hne
    have hmem := mem_recordedMethods.mpr ⟨by decide, hne, hm⟩
    rw [hrecorded] at hmem
    exact List.not_mem_nil hmem
  have hmethod : ∀ t ∈ [str "Shape", str "Box"], HasMethod 1 namelessMethods t [] := by
    simp only [HasMethod, namelessMethods, indexedRecord]
    decide
  refine ⟨⟨by simp [ImplRecorded, indexedRecord, Store.functionRecord], ?_⟩, ⟨?_, ?_, ?_, ?_, ?_⟩, ?_⟩
  · rw [mem_loadDispatchIndex]
    rintro (⟨hname, -⟩ | hshows)
    · exact hname rfl
    · obtain ⟨m, hname, -⟩ := hshows.some_own
      exact hname rfl
  · simp [Declared, namelessMethods, indexedRecord, Store.functionRecord]
  · exact ⟨[], hmethod _ (by simp)⟩
  · simp only [Declared, namelessMethods, indexedRecord]
    decide
  · exact ⟨[], hmethod _ (by simp)⟩
  · intro m hm
    rw [hshape m hm]
    exact hmethod _ (by simp)
  · rw [mem_loadDispatchIndex]
    rintro (⟨-, -, himpl⟩ | hshows)
    · simp [ImplRecorded, namelessMethods, indexedRecord] at himpl
    · obtain ⟨m, -, hm, hhas⟩ := hshows.some_method
      exact hm (hshape m hhas)

end CodeScope.Resolver
