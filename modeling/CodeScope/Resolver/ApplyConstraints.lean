import CodeScope.Resolver.Factors

/-! # Scoring the candidates of a reference

What a run of the resolver has loaded, and `applyConstraints`: every factor adds its weight and its
weighted score to a candidate's tally, the total is the weighted average, and the candidates are
sorted by total, best first. -/

namespace CodeScope.Resolver

open Text (Str str lower)

/-! ## What is loaded -/

/-- The columns of `entity` that `loadEntityIndex` selects. -/
structure EntityRow where
  id : Nat
  name : Str
  filePath : Str
  language : Str
  arity : Int
  kind : Int
  qualifiedName : Str
deriving DecidableEq

/-- A potential match for a reference, with the path components derived when it is loaded. -/
structure Candidate where
  entityId : Nat
  name : Str
  filePath : Str
  language : Str
  qualifiedName : Str
  arity : Int
  kind : Int
  candDir : Str
  candParent : Str
  candModule : Str
deriving DecidableEq

def EntityRow.toCandidate (row : EntityRow) : Candidate where
  entityId := row.id
  name := row.name
  filePath := row.filePath
  language := row.language
  qualifiedName := row.qualifiedName
  arity := row.arity
  kind := row.kind
  candDir := dirOf row.filePath
  candParent := dirOf (dirOf row.filePath)
  candModule := moduleToken (dirOf row.filePath)

/-- One unresolved reference. -/
structure RefRow where
  refId : Nat
  name : Str
  callerId : Nat
  callerFile : Str
  callKind : Int
  arity : Int
  startRow : Int
  startCol : Int
  resolveStrategy : Str
  qualifiedTarget : Str
  receiverText : Str
  receiverType : Str
  importAlias : Str
  callSiteFile : Str
deriving DecidableEq

/-- A project as `run` has loaded it. The entity rows come in the order of their ids, which are
    rowids: positive, none twice. The dispatch and type tables are kept as the lookups the loop
    makes, `fuzzy` is the answer of the fuzzy resolver to a name, and `toString` renders a score
    as `std::to_string` renders the double. -/
structure ResolverPipeline where
  entities : List EntityRow
  ids_positive : ∀ row ∈ entities, 0 < row.id
  ids_nodup : (entities.map (·.id)).Nodup
  /-- `file_path` and `target_path` of the `import` rows. -/
  imports : List (Str × Str)
  /-- `file_path`, `name` and `type_name` of the import binding records. -/
  importBindings : List (Str × Str × Str)
  interfaceImplIndex : Str → List Str
  globalStructFields : Str → Str → Option Str
  globalVarTypes : Str → List Str
  fuzzy : Str → List Nat
  /-- `CODESCOPE_RESOLVER_DISABLE_FACTOR` -/
  disableFactor : Str
  toString : ℚ → Str

namespace ResolverPipeline

variable (p : ResolverPipeline)

/-- Every entity that `loadEntityIndex` keeps, as a candidate. -/
def candidates : List Candidate :=
  (p.entities.filter (·.name ≠ [])).map EntityRow.toCandidate

/-- `entity_index[name]` -/
def entityIndex (name : Str) : List Candidate := p.candidates.filter (·.name = name)

/-- `entity_by_id[id]` -/
def entityById (id : Nat) : Option Candidate := p.candidates.find? (·.entityId = id)

/-- `import_index_[file]` -/
def importIndex (file : Str) : List Str := (p.imports.filter (·.1 = file)).map (·.2)

/-- `import_alias_index_[file][name]`: a later record overwrites an earlier one. -/
def importAliasIndex (file name : Str) : Option Str :=
  ((p.importBindings.filter fun b => b.1 = file ∧ b.2.1 = name).map (·.2.2)).getLast?

variable {c : Candidate}

theorem toCandidate_of_mem (h : c ∈ p.candidates) : ∃ row ∈ p.entities, row.toCandidate = c := by
  obtain ⟨row, hrow, heq⟩ := List.mem_map.mp h
  exact ⟨row, List.mem_of_mem_filter hrow, heq⟩

theorem entityId_pos (h : c ∈ p.candidates) : 0 < c.entityId := by
  obtain ⟨row, hrow, rfl⟩ := p.toCandidate_of_mem h
  exact p.ids_positive row hrow

theorem candDir_eq (h : c ∈ p.candidates) : c.candDir = dirOf c.filePath := by
  obtain ⟨row, -, rfl⟩ := p.toCandidate_of_mem h
  rfl

theorem candModule_eq (h : c ∈ p.candidates) : c.candModule = moduleToken (dirOf c.filePath) := by
  obtain ⟨row, -, rfl⟩ := p.toCandidate_of_mem h
  rfl

theorem mem_candidates_of_entityIndex {name : Str} (h : c ∈ p.entityIndex name) :
    c ∈ p.candidates := List.mem_of_mem_filter h

theorem name_of_entityIndex {name : Str} (h : c ∈ p.entityIndex name) : c.name = name := by
  simpa using (List.mem_filter.mp h).2

theorem entityById_some {id : Nat} (h : p.entityById id = some c) :
    c ∈ p.candidates ∧ c.entityId = id :=
  ⟨List.mem_of_find?_eq_some h, by simpa using List.find?_some h⟩

end ResolverPipeline

/-! ## The factors of one candidate -/

/-- One `acc` call: the weight, the score and the name of a factor. -/
structure Contribution where
  weight : ℚ
  score : ℚ
  factor : Factor

/-- The accumulators of the weighted average. -/
structure Tally where
  sumWeight : ℚ
  sumScored : ℚ
  bestContribution : ℚ
  deciding : Option Factor

def Tally.init : Tally := ⟨0, 0, 0, none⟩

/-- `acc`: a disabled factor adds nothing; the first factor with the largest positive contribution
    decides. -/
def Tally.acc (disabled : Option Factor) (t : Tally) (k : Contribution) : Tally :=
  if disabled = some k.factor then t
  else
    { sumWeight := t.sumWeight + k.weight
      sumScored := t.sumScored + k.weight * k.score
      bestContribution :=
        if t.bestContribution < k.weight * k.score then k.weight * k.score
        else t.bestContribution
      deciding :=
        if t.bestContribution < k.weight * k.score then some k.factor else t.deciding }

/-- The weighted average. -/
def Tally.total (t : Tally) : ℚ := if 0 < t.sumWeight then t.sumScored / t.sumWeight else 0

section Factors

variable (p : ResolverPipeline) (ref : RefRow) (c : Candidate)

/-- The relative specifier the caller imports the callee from; empty when there is none. -/
def importSpec : Str :=
  match p.importAliasIndex ref.callerFile ref.name with
  | some spec => if spec.head? = some '.' then spec else []
  | none => []

/-- NamespaceMatch: same directory, else same non-empty parent directory. -/
def nsScore : ℚ :=
  let callerDir := dirOf ref.callerFile
  if c.candDir ≠ [] ∧ callerDir ≠ [] then
    if callerDir = c.candDir then kScoreExactMatch
    else if dirOf callerDir = c.candParent ∧ dirOf callerDir ≠ [] then kScoreSiblingModule
    else 0
  else 0

/-- The forward imports of the caller in one text, each followed by a NUL. -/
def callerFwdJoined : Str :=
  (p.importIndex ref.callerFile).flatMap fun path => path ++ ['\x00']

/-- ImportMatch: same directory, else an import of the caller that mentions the candidate's module,
    else an import of the candidate that mentions the caller's; only for the callee's own name. -/
def importScore : ℚ :=
  let callerDir := dirOf ref.callerFile
  if c.name = ref.name then
    if callerDir ≠ [] ∧ callerDir = c.candDir then 1
    else if callerFwdJoined p ref ≠ [] ∧ Text.contains c.candModule (callerFwdJoined p ref) then 1
    else if (p.importIndex c.filePath).any (Text.contains (moduleToken callerDir)) then 1
    else 0
  else 0

/-- ImportModuleMatch -/
def importModuleScore : ℚ :=
  if relativeImportMatchesFile (dirOf ref.callerFile) (importSpec p ref) c.filePath then 1 else 0

/-- SignatureMatch: fewer arguments than declared are no mismatch where defaults exist. -/
def signatureScore : ℚ :=
  let signature := factorSignatureMatch ref.arity c.arity
  if signature = kScorePenalty ∧ ref.arity < c.arity ∧ allowsDefaultArguments c.filePath then
    kScorePartialMatch
  else signature

/-- DistanceMatch: same file, else same directory. -/
def distanceScore : ℚ :=
  let callerDir := dirOf ref.callerFile
  if ref.callerFile = c.filePath then kScoreExactMatch
  else if callerDir ≠ [] ∧ callerDir = c.candDir then kScoreSameDirectory
  else 0

/-- ReceiverMatch: neutral for an unknown receiver. -/
def receiverScore : ℚ :=
  if ref.receiverType = [] then 5 / 10
  else factorReceiverTypeMatchPrecomp (buildReceiverMatchContext ref.receiverType) c.qualifiedName
    c.filePath

/-- CommonNamePenalty: only across modules. -/
def commonNamePenalty : ℚ := if 0 < nsScore ref c then 0 else factorCommonNamePenalty ref.name

/-- CallKindMatch -/
def callKindScore : ℚ :=
  if ref.callKind = kCallKindConstructor then 3 / 10
  else if ref.callKind = kCallKindInterface then -3 / 10
  else if ref.callKind = kCallKindMethod then -1 / 10
  else 0

/-- The `acc` calls of one candidate, in order. -/
def contributions : List Contribution :=
  [⟨kWeightModuleMatch, nsScore ref c, .moduleMatch⟩,
    ⟨kWeightImportMatch, importScore p ref c, .importMatch⟩] ++
  (if importSpec p ref ≠ [] then
    [⟨kWeightImportModuleMatch, importModuleScore p ref c, .importModuleMatch⟩]
  else []) ++
  [⟨kWeightNamespaceMatch, nsScore ref c, .namespaceMatch⟩,
    ⟨kWeightSignatureMatch, signatureScore ref c, .signatureMatch⟩,
    ⟨kWeightDistanceMatch, distanceScore ref c, .distanceMatch⟩,
    ⟨kWeightConstructorMatch, factorConstructorMatch ref.name c.name c.kind, .constructorMatch⟩,
    ⟨kWeightReceiverMatch, receiverScore ref c, .receiverMatch⟩,
    ⟨kWeightCommonNamePenalty, -commonNamePenalty ref c, .commonNamePenalty⟩] ++
  (if ref.callKind ≠ kCallKindDirect then
    [⟨kWeightCallKindMatch, callKindScore ref, .callKindMatch⟩]
  else []) ++
  [⟨kWeightDefinitionMatch, factorDefinitionMatch c.language c.filePath, .definitionMatch⟩]

def tally : Tally :=
  (contributions p ref c).foldl (Tally.acc (disabledFactor p.disableFactor)) Tally.init

end Factors

/-! ## The ranking -/

/-- A candidate with what `applyConstraints` writes into it. -/
structure Scored where
  candidate : Candidate
  totalScore : ℚ
  decidingFactor : Option Factor
  receiverScore : ℚ

/-- The scores of one candidate. -/
def scoreCandidate (p : ResolverPipeline) (ref : RefRow) (c : Candidate) : Scored where
  candidate := c
  totalScore := (tally p ref c).total
  decidingFactor := (tally p ref c).deciding
  receiverScore := receiverScore ref c

/-- The comparator of the sort: the larger total first, the smaller id first among equals. -/
def Scored.before (a b : Scored) : Bool :=
  if a.totalScore ≠ b.totalScore then b.totalScore < a.totalScore
  else a.candidate.entityId < b.candidate.entityId

/-- `a` may stand before `b`. -/
def Scored.le (a b : Scored) : Bool := !b.before a

def applyConstraints (p : ResolverPipeline) (ref : RefRow) (candidates : List Candidate) :
    List Scored :=
  (candidates.map (scoreCandidate p ref)).mergeSort Scored.le

theorem Scored.le_iff {a b : Scored} :
    a.le b = true ↔ b.totalScore < a.totalScore ∨
      (a.totalScore = b.totalScore ∧ a.candidate.entityId ≤ b.candidate.entityId) := by
  unfold Scored.le Scored.before
  by_cases heq : b.totalScore = a.totalScore
  · simp [heq]
  · have hne : ¬ a.totalScore = b.totalScore := fun h => heq h.symm
    simp [heq, hne, lt_iff_le_and_ne]

theorem Scored.le_trans {a b c : Scored} (hab : a.le b = true) (hbc : b.le c = true) :
    a.le c = true := by
  rw [Scored.le_iff] at hab hbc ⊢
  rcases hab with hab | ⟨hab, hid⟩ <;> rcases hbc with hbc | ⟨hbc, hid'⟩
  · exact Or.inl (lt_trans hbc hab)
  · exact Or.inl (by rw [← hbc]; exact hab)
  · exact Or.inl (by rw [hab]; exact hbc)
  · exact Or.inr ⟨hab.trans hbc, hid.trans hid'⟩

theorem Scored.le_total (a b : Scored) : (a.le b || b.le a) = true := by
  rw [Bool.or_eq_true, Scored.le_iff, Scored.le_iff]
  rcases lt_trichotomy a.totalScore b.totalScore with hlt | heq | hgt
  · exact Or.inr (Or.inl hlt)
  · rcases Nat.le_total a.candidate.entityId b.candidate.entityId with hid | hid
    · exact Or.inl (Or.inr ⟨heq, hid⟩)
    · exact Or.inr (Or.inr ⟨heq.symm, hid⟩)
  · exact Or.inl (Or.inl hgt)

theorem Scored.entityId_eq {a b : Scored} (hab : a.le b = true) (hba : b.le a = true) :
    a.candidate.entityId = b.candidate.entityId := by
  rw [Scored.le_iff] at hab hba
  rcases hab with hab | ⟨hab, hid⟩ <;> rcases hba with hba | ⟨hba, hid'⟩
  · exact absurd hab (lt_asymm hba)
  · exact absurd hba (ne_of_lt hab)
  · exact absurd hab (ne_of_lt hba)
  · exact Nat.le_antisymm hid hid'

theorem applyConstraints_perm (p : ResolverPipeline) (ref : RefRow) (candidates : List Candidate) :
    (applyConstraints p ref candidates).Perm (candidates.map (scoreCandidate p ref)) :=
  List.mergeSort_perm _ _

theorem applyConstraints_sorted (p : ResolverPipeline) (ref : RefRow)
    (candidates : List Candidate) :
    (applyConstraints p ref candidates).Pairwise (fun a b => a.le b = true) := by
  have htrans : ∀ a b c : Scored, a.le b = true → b.le c = true → a.le c = true :=
    fun _ _ _ => Scored.le_trans
  exact List.pairwise_mergeSort htrans Scored.le_total _

theorem mem_applyConstraints {p : ResolverPipeline} {ref : RefRow} {candidates : List Candidate}
    {s : Scored} :
    s ∈ applyConstraints p ref candidates ↔ ∃ c ∈ candidates, scoreCandidate p ref c = s := by
  rw [(applyConstraints_perm p ref candidates).mem_iff, List.mem_map]

/-- **The ranking is a function of the set of candidates**: whatever list the sort returns, if it
    is a sorted arrangement of the scored candidates, with no entity twice, it is this one. So
    neither the stability of the sort nor the order of the input shows. -/
theorem applyConstraints_unique {p : ResolverPipeline} {ref : RefRow}
    {candidates : List Candidate} {ranking : List Scored}
    (hids : (candidates.map (·.entityId)).Nodup)
    (hperm : ranking.Perm (candidates.map (scoreCandidate p ref)))
    (hsorted : ranking.Pairwise (fun a b => a.le b = true)) :
    ranking = applyConstraints p ref candidates := by
  have hsame : ranking.Perm (applyConstraints p ref candidates) :=
    hperm.trans (applyConstraints_perm p ref candidates).symm
  refine List.Perm.eq_of_pairwise ?_ hsorted (applyConstraints_sorted p ref candidates) hsame
  intro a b ha hb hab hba
  have hid := Scored.entityId_eq hab hba
  obtain ⟨ca, hca, rfl⟩ := List.mem_map.mp (hperm.mem_iff.mp ha)
  obtain ⟨cb, hcb, rfl⟩ := mem_applyConstraints.mp hb
  have hc : ca = cb := List.inj_on_of_nodup_map hids hca hcb hid
  rw [hc]

/-! ## The sums of the weighted average -/

theorem Tally.foldl_sums (ks : List Contribution) (t : Tally) :
    (ks.foldl (Tally.acc none) t).sumWeight = t.sumWeight + (ks.map (·.weight)).sum ∧
    (ks.foldl (Tally.acc none) t).sumScored =
      t.sumScored + (ks.map fun k => k.weight * k.score).sum := by
  induction ks generalizing t with
  | nil => simp
  | cons k rest ih =>
      have hstep := ih (Tally.acc none t k)
      have hweight : (Tally.acc none t k).sumWeight = t.sumWeight + k.weight := by simp [Tally.acc]
      have hscored : (Tally.acc none t k).sumScored = t.sumScored + k.weight * k.score := by
        simp [Tally.acc]
      rw [hweight, hscored] at hstep
      refine ⟨?_, ?_⟩
      · rw [List.foldl_cons, hstep.1, List.map_cons, List.sum_cons, add_assoc]
      · rw [List.foldl_cons, hstep.2, List.map_cons, List.sum_cons, add_assoc]

theorem Tally.le_total_iff {t : Tally} (h : 0 < t.sumWeight) (threshold : ℚ) :
    threshold ≤ t.total ↔ threshold * t.sumWeight ≤ t.sumScored := by
  unfold Tally.total
  rw [if_pos h, le_div_iff₀ h]

end CodeScope.Resolver
