import CodeScope.Resolver.Pipeline

/-! # When the fast path is justified

The single-candidate fast path stages its edge without a score. Here its decision is compared with
the score the same candidate would get: the weighted sum is bounded factor by factor, over the
weights that apply. A shared directory with a name carries `ModuleMatch`, `ImportMatch` and
`NamespaceMatch` and nearly always reaches the threshold; the empty directory of a file directly
under the root carries none of them. -/

namespace CodeScope.Resolver

open Text (Str str lower)

/-! ## The scored path on one candidate -/

/-- One eligible candidate is selected when its total reaches the threshold. -/
theorem scoredSelection_single {p : ResolverPipeline} {ref : RefRow} {c : Candidate}
    (hid : 0 < c.entityId) (hok : eligible ref (scoreCandidate p ref c) = true) :
    scoredSelection p ref [c] =
      if kResolutionThreshold ≤ (tally p ref c).total then some (scoreCandidate p ref c)
      else none := by
  have hranking : applyConstraints p ref [c] = [scoreCandidate p ref c] := by
    simp [applyConstraints]
  have hthreshold : kResolutionThreshold = 2 / 5 := by norm_num [kResolutionThreshold]
  have htotal : (scoreCandidate p ref c).totalScore = (tally p ref c).total := rfl
  unfold scoredSelection
  rw [hranking]
  by_cases hreach : kResolutionThreshold ≤ (tally p ref c).total
  · have hbest : -1 < (tally p ref c).total := by linarith
    have hnotlow : ¬ (tally p ref c).total < kResolutionThreshold := not_lt.mpr hreach
    have hidne : ¬ (scoreCandidate p ref c).candidate.entityId = 0 := Nat.ne_of_gt hid
    simp [selectRanked, Selection.step, Selection.init, hok, scoreOf, idOf, htotal, hbest, hreach,
      hnotlow, hidne]
  · by_cases hbest : -1 < (tally p ref c).total
    · simp [selectRanked, Selection.step, Selection.init, hok, scoreOf, idOf, htotal, hbest,
        hreach, not_le.mp hreach]
    · simp [selectRanked, Selection.step, Selection.init, hok, scoreOf, idOf, htotal, hbest, hreach]

/-! ## The sums of one candidate -/

section Sums

variable (p : ResolverPipeline) (ref : RefRow) (c : Candidate)

/-- The weights that apply to a reference: all of them but ImportModuleMatch without a relative
    specifier, and CallKindMatch for a direct call. -/
def appliedWeight : ℚ :=
  7 / 4 + (if importSpec p ref = [] then 0 else 9 / 10) +
    (if ref.callKind = kCallKindDirect then 0 else 3 / 20)

/-- What signature, distance, constructor, receiver, call kind and definition add. -/
def localEvidence : ℚ :=
  1 / 10 * signatureScore ref c + 1 / 20 * distanceScore ref c +
    1 / 10 * factorConstructorMatch ref.name c.name c.kind + 3 / 20 * receiverScore ref c +
    (if ref.callKind = kCallKindDirect then 0 else 3 / 20 * callKindScore ref) +
    1 / 5 * factorDefinitionMatch c.language c.filePath

/-- What directory and imports add. -/
def placeEvidence : ℚ :=
  1 / 4 * nsScore ref c + 4 / 5 * importScore p ref c +
    (if importSpec p ref = [] then 0 else 9 / 10 * importModuleScore p ref c) -
    1 / 10 * commonNamePenalty ref c

theorem tally_sums (h : disabledFactor p.disableFactor = none) :
    (tally p ref c).sumWeight = appliedWeight p ref ∧
    (tally p ref c).sumScored = placeEvidence p ref c + localEvidence ref c := by
  have hsums := Tally.foldl_sums (contributions p ref c) Tally.init
  unfold tally
  rw [h, hsums.1, hsums.2]
  unfold contributions appliedWeight placeEvidence localEvidence
  unfold kWeightModuleMatch kWeightImportMatch kWeightImportModuleMatch kWeightNamespaceMatch
    kWeightSignatureMatch kWeightDistanceMatch kWeightConstructorMatch kWeightReceiverMatch
    kWeightCommonNamePenalty kWeightCallKindMatch kWeightDefinitionMatch
  by_cases hspec : importSpec p ref = [] <;> by_cases hkind : ref.callKind = kCallKindDirect <;>
    simp [hspec, hkind, Tally.init] <;> constructor <;> ring

theorem threshold_le_total_iff (h : disabledFactor p.disableFactor = none) :
    kResolutionThreshold ≤ (tally p ref c).total ↔
      2 / 5 * appliedWeight p ref ≤ placeEvidence p ref c + localEvidence ref c := by
  obtain ⟨hweight, hscored⟩ := tally_sums p ref c h
  have hpos : 0 < (tally p ref c).sumWeight := by
    rw [hweight]
    unfold appliedWeight
    split_ifs <;> norm_num
  have hthreshold : kResolutionThreshold = 2 / 5 := by norm_num [kResolutionThreshold]
  rw [Tally.le_total_iff hpos, hweight, hscored, hthreshold]

end Sums

/-! ## Bounds of the factors -/

theorem signatureScore_bounds (ref : RefRow) (c : Candidate) :
    -1 / 2 ≤ signatureScore ref c ∧ signatureScore ref c ≤ 1 := by
  unfold signatureScore factorSignatureMatch kScorePartialMatch kScoreExactMatch kScorePenalty
  dsimp only
  split_ifs <;> norm_num

theorem distanceScore_bounds (ref : RefRow) (c : Candidate) :
    0 ≤ distanceScore ref c ∧ distanceScore ref c ≤ 1 := by
  unfold distanceScore kScoreExactMatch kScoreSameDirectory
  dsimp only
  split_ifs <;> norm_num

theorem constructorScore_bounds (refName candidateName : Str) (kind : Int) :
    0 ≤ factorConstructorMatch refName candidateName kind ∧
    factorConstructorMatch refName candidateName kind ≤ 1 := by
  unfold factorConstructorMatch kScoreExactMatch
  split_ifs <;> norm_num

theorem receiverScore_bounds (ref : RefRow) (c : Candidate) :
    0 ≤ receiverScore ref c ∧ receiverScore ref c ≤ 1 := by
  unfold receiverScore factorReceiverTypeMatchPrecomp kScoreExactMatch kScorePartialMatch
    kScoreWeakFilenameMatch
  split_ifs
  · norm_num
  · split
    · norm_num
    · split_ifs <;> norm_num

theorem callKindScore_bounds (ref : RefRow) :
    -3 / 10 ≤ callKindScore ref ∧ callKindScore ref ≤ 3 / 10 := by
  unfold callKindScore
  split_ifs <;> norm_num

theorem commonNamePenalty_nonneg (ref : RefRow) (c : Candidate) : 0 ≤ commonNamePenalty ref c := by
  unfold commonNamePenalty factorCommonNamePenalty kCommonNamePenaltyValue
  split_ifs <;> norm_num

/-- The candidate is declared in a C++ header, as far as its path tells. -/
def headerOnly (c : Candidate) : Prop :=
  c.language = str "cpp" ∧ isCppSourceFile c.filePath = false ∧ isCppHeaderFile c.filePath = true

theorem definitionScore_of_not_headerOnly {c : Candidate} (h : ¬ headerOnly c) :
    factorDefinitionMatch c.language c.filePath = 1 := by
  unfold headerOnly at h
  rw [factorDefinitionMatch_eq, if_neg h]

theorem definitionScore_bounds (c : Candidate) :
    -1 / 2 ≤ factorDefinitionMatch c.language c.filePath ∧
    factorDefinitionMatch c.language c.filePath ≤ 1 := by
  rw [factorDefinitionMatch_eq]
  unfold kScorePenalty
  split_ifs <;> norm_num

theorem nsScore_of_root {ref : RefRow} (c : Candidate) (h : dirOf ref.callerFile = []) :
    nsScore ref c = 0 := by
  unfold nsScore
  simp [h]

/-! ## A shared directory -/

/-- A single exact candidate in the caller's directory that the fast path accepts, with no factor
    disabled. -/
structure LocalCandidate (p : ResolverPipeline) (ref : RefRow) (c : Candidate) : Prop where
  entry : p.entityIndex ref.name = [c]
  same_dir : sameDir ref.callerFile c.filePath = true
  not_caller : c.entityId ≠ ref.callerId
  language : languageOk ref c = true
  visible : visibleTo ref c = true
  enabled : disabledFactor p.disableFactor = none

namespace LocalCandidate

variable {p : ResolverPipeline} {ref : RefRow} {c : Candidate} (h : LocalCandidate p ref c)
include h

theorem mem_entry : c ∈ p.entityIndex ref.name := by
  rw [h.entry]
  exact List.mem_singleton_self c

theorem name_eq : c.name = ref.name := p.name_of_entityIndex h.mem_entry

theorem mem_candidates : c ∈ p.candidates := p.mem_candidates_of_entityIndex h.mem_entry

theorem isEligible : eligible ref (scoreCandidate p ref c) = true := by
  have hcaller := h.not_caller
  have hvisible := h.visible
  have hlang := h.language
  simp [eligible, scoreCandidate, hcaller, hvisible, hlang]

theorem split_eq : ∃ dir callerBase candBase,
    Text.splitLast '/' ref.callerFile = some (dir, callerBase) ∧
    Text.splitLast '/' c.filePath = some (dir, candBase) := by
  have hsame := h.same_dir
  unfold sameDir at hsame
  split at hsame
  · rename_i dirA baseA dirB baseB hcaller hcand
    have hdir : dirA = dirB := by simpa using hsame
    exact ⟨dirA, baseA, baseB, hcaller, by rw [hcand, hdir]⟩
  · exact absurd hsame (by simp)

theorem candDir_eq_callerDir : c.candDir = dirOf ref.callerFile := by
  obtain ⟨dir, callerBase, candBase, hcaller, hcand⟩ := h.split_eq
  rw [p.candDir_eq h.mem_candidates]
  unfold dirOf Text.beforeLast
  rw [hcaller, hcand]

theorem fastPath_emits : ∃ e, fastPath ref [c] false = .emit e ∧ e.targetId = c.entityId := by
  have hlang : ¬ languageOk ref c = false := by simp [h.language]
  have hlocal : sameDir ref.callerFile c.filePath = true ∧
      (false = false ∨ ref.callKind = 0) ∧ visibleTo ref c = true :=
    ⟨h.same_dir, Or.inl rfl, h.visible⟩
  refine ⟨ref.edge c.entityId (85 / 100) (str "exact_local")
    (str "single same-module candidate"), ?_, rfl⟩
  unfold fastPath
  dsimp only
  rw [if_neg h.not_caller, if_neg hlang, if_pos hlocal]
  rfl

/-! ### A directory with a name -/

section Named

variable (hdir : dirOf ref.callerFile ≠ [])
include hdir

theorem named_nsScore : nsScore ref c = 1 := by
  unfold nsScore kScoreExactMatch
  rw [h.candDir_eq_callerDir]
  simp [hdir]

theorem named_importScore : importScore p ref c = 1 := by
  unfold importScore
  rw [h.candDir_eq_callerDir]
  simp [h.name_eq, hdir]

theorem named_penalty : commonNamePenalty ref c = 0 := by
  unfold commonNamePenalty
  rw [h.named_nsScore hdir]
  norm_num

theorem named_distanceScore : 3 / 10 ≤ distanceScore ref c := by
  unfold distanceScore kScoreExactMatch kScoreSameDirectory
  rw [h.candDir_eq_callerDir]
  dsimp only
  split_ifs with hfile hsame
  · norm_num
  · exact le_refl _
  · exact absurd ⟨hdir, rfl⟩ hsame

theorem named_placeEvidence : placeEvidence p ref c =
    21 / 20 + (if importSpec p ref = [] then 0 else 9 / 10 * importModuleScore p ref c) := by
  unfold placeEvidence
  rw [h.named_nsScore hdir, h.named_importScore hdir, h.named_penalty hdir]
  ring

/-- With a named directory, the evidence suffices unless the caller imports the name from another
    module and the candidate is only declared in a header. -/
theorem named_reaches
    (hcase : importSpec p ref = [] ∨
      relativeImportMatchesFile (dirOf ref.callerFile) (importSpec p ref) c.filePath = true ∨
      ¬ headerOnly c) :
    2 / 5 * appliedWeight p ref ≤ placeEvidence p ref c + localEvidence ref c := by
  rw [h.named_placeEvidence hdir]
  have hsig := (signatureScore_bounds ref c).1
  have hdist := h.named_distanceScore hdir
  have hctor := (constructorScore_bounds ref.name c.name c.kind).1
  have hrecv := (receiverScore_bounds ref c).1
  have hkindScore := (callKindScore_bounds ref).1
  have hdef := (definitionScore_bounds c).1
  unfold appliedWeight localEvidence
  rcases hcase with hspec | hmatch | hheader
  · rw [if_pos hspec, if_pos hspec]
    split_ifs <;> linarith
  · have himport : importModuleScore p ref c = 1 := by
      unfold importModuleScore
      rw [if_pos hmatch]
    rw [himport]
    split_ifs <;> linarith
  · have hdefined := definitionScore_of_not_headerOnly hheader
    have himport : 0 ≤ importModuleScore p ref c := by
      unfold importModuleScore
      split_ifs <;> norm_num
    rw [hdefined]
    split_ifs <;> linarith

end Named

/-! ### The directory of the root -/

section Root

variable (hdir : dirOf ref.callerFile = [])
include hdir

theorem root_importModuleScore : importModuleScore p ref c = 0 := by
  obtain ⟨dir, callerBase, candBase, hcaller, hcand⟩ := h.split_eq
  have hempty : dir = [] := by
    unfold dirOf Text.beforeLast at hdir
    rw [hcaller] at hdir
    exact hdir
  have hfile : c.filePath = '/' :: candBase := by
    rw [(Text.splitLast_some.mp hcand).1, hempty]
    rfl
  unfold importModuleScore
  rw [hdir, relativeImportMatchesFile_root hfile]
  rfl

/-- Under the root any import of one of the two files counts: the empty module name occurs in
    every path. -/
theorem root_importScore : importScore p ref c =
    if p.importIndex ref.callerFile ≠ [] ∨ p.importIndex c.filePath ≠ [] then 1 else 0 := by
  have hmodule : c.candModule = [] := by
    rw [p.candModule_eq h.mem_candidates, ← p.candDir_eq h.mem_candidates,
      h.candDir_eq_callerDir, hdir]
    rfl
  have hcallerModule : moduleToken (dirOf ref.callerFile) = [] := by
    rw [hdir]
    rfl
  unfold importScore
  dsimp only
  rw [hcallerModule, hmodule, hdir]
  unfold callerFwdJoined
  cases p.importIndex ref.callerFile with
  | cons path paths => simp [h.name_eq]
  | nil => cases p.importIndex c.filePath <;> simp [h.name_eq]

theorem root_placeEvidence : placeEvidence p ref c =
    (if p.importIndex ref.callerFile ≠ [] ∨ p.importIndex c.filePath ≠ [] then 4 / 5 else 0) -
      1 / 10 * factorCommonNamePenalty ref.name := by
  have hpenalty : commonNamePenalty ref c = factorCommonNamePenalty ref.name := by
    unfold commonNamePenalty
    rw [nsScore_of_root c hdir]
    norm_num
  unfold placeEvidence
  rw [nsScore_of_root c hdir, h.root_importScore hdir, h.root_importModuleScore hdir, hpenalty]
  split_ifs <;> ring

/-- Under the root and without an import, all the remaining evidence together stays below the
    threshold. -/
theorem root_falls_short
    (himports : ¬ (p.importIndex ref.callerFile ≠ [] ∨ p.importIndex c.filePath ≠ [])) :
    placeEvidence p ref c + localEvidence ref c < 2 / 5 * appliedWeight p ref := by
  have hpenalty := commonNamePenalty_nonneg ref c
  unfold commonNamePenalty at hpenalty
  rw [nsScore_of_root c hdir, if_neg (lt_irrefl 0)] at hpenalty
  rw [h.root_placeEvidence hdir, if_neg himports]
  have hsig := (signatureScore_bounds ref c).2
  have hdist := (distanceScore_bounds ref c).2
  have hctor := (constructorScore_bounds ref.name c.name c.kind).2
  have hrecv := (receiverScore_bounds ref c).2
  have hkindScore := (callKindScore_bounds ref).2
  have hdef := (definitionScore_bounds c).2
  unfold appliedWeight localEvidence
  split_ifs <;> linarith

end Root

end LocalCandidate

/-! ## The condition -/

/-- When the fast path's edge is justified. With a named directory: no relative import of the name,
    or one of this file, or a definition, or else enough local evidence to make up for the import
    and the header. Directly under the root: an import of one of the two files, and enough local
    evidence. -/
def Justified (p : ResolverPipeline) (ref : RefRow) (c : Candidate) : Prop :=
  (dirOf ref.callerFile ≠ [] ∧
    (importSpec p ref = [] ∨
      relativeImportMatchesFile (dirOf ref.callerFile) (importSpec p ref) c.filePath = true ∨
      ¬ headerOnly c ∨
      2 / 5 * appliedWeight p ref ≤ 21 / 20 + localEvidence ref c)) ∨
  (dirOf ref.callerFile = [] ∧
    (p.importIndex ref.callerFile ≠ [] ∨ p.importIndex c.filePath ≠ []) ∧
    2 / 5 * appliedWeight p ref ≤
      4 / 5 - 1 / 10 * factorCommonNamePenalty ref.name + localEvidence ref c)

theorem LocalCandidate.reaches_iff {p : ResolverPipeline} {ref : RefRow} {c : Candidate}
    (h : LocalCandidate p ref c) :
    2 / 5 * appliedWeight p ref ≤ placeEvidence p ref c + localEvidence ref c ↔
      Justified p ref c := by
  unfold Justified
  by_cases hdir : dirOf ref.callerFile = []
  · by_cases himports : p.importIndex ref.callerFile ≠ [] ∨ p.importIndex c.filePath ≠ []
    · rw [h.root_placeEvidence hdir, if_pos himports]
      simp only [hdir, himports, ne_eq, not_true_eq_false, false_and, true_and, false_or]
    · have hshort := not_le.mpr (h.root_falls_short hdir himports)
      simp only [hdir, himports, ne_eq, not_true_eq_false, false_and, and_false, or_false]
      exact ⟨fun hle => hshort hle, False.elim⟩
  · simp only [hdir, ne_eq, not_false_eq_true, true_and, false_and, or_false]
    by_cases hcase : importSpec p ref = [] ∨
        relativeImportMatchesFile (dirOf ref.callerFile) (importSpec p ref) c.filePath = true ∨
        ¬ headerOnly c
    · have hreach := h.named_reaches hdir hcase
      constructor
      · intro _
        rcases hcase with hspec | hmatch | hheader
        · exact Or.inl hspec
        · exact Or.inr (Or.inl hmatch)
        · exact Or.inr (Or.inr (Or.inl hheader))
      · intro _
        exact hreach
    · have hspec : ¬ importSpec p ref = [] := fun hs => hcase (Or.inl hs)
      have hmatch : ¬ relativeImportMatchesFile (dirOf ref.callerFile) (importSpec p ref)
          c.filePath = true := fun hm => hcase (Or.inr (Or.inl hm))
      have hheader : headerOnly c := by
        by_contra hnot
        exact hcase (Or.inr (Or.inr hnot))
      have himport : importModuleScore p ref c = 0 := by
        unfold importModuleScore
        rw [if_neg hmatch]
      rw [h.named_placeEvidence hdir, himport]
      simp [hspec, hmatch, hheader]

/-- A module that imports `render` from `./view.mjs` and, beside it, a C++ header that declares a
    `render`. The path of the caller tells no language, so every language is compatible. -/
def polyglot : ResolverPipeline where
  entities := [
    ⟨1, str "main", str "/p/app.mjs", str "javascript", 0, 0, []⟩,
    ⟨2, str "render", str "/p/render.hpp", str "cpp", 1, 0, str "render"⟩]
  ids_positive := by decide
  ids_nodup := by decide
  imports := [(str "/p/app.mjs", str "./view.mjs")]
  importBindings := [(str "/p/app.mjs", str "render", str "./view.mjs")]
  interfaceImplIndex := fun _ => []
  globalStructFields := fun _ _ => none
  globalVarTypes := fun _ => []
  fuzzy := fun _ => []
  disableFactor := []
  toString := fun _ => []

/-- `render(view, options)`. -/
def renderCall : RefRow where
  refId := 1
  name := str "render"
  callerId := 1
  callerFile := str "/p/app.mjs"
  callKind := kCallKindDirect
  arity := 2
  startRow := 3
  startCol := 0
  resolveStrategy := []
  qualifiedTarget := str "render"
  receiverText := []
  receiverType := []
  importAlias := str "render"
  callSiteFile := str "/p/app.mjs"

/-- `void render(int)` -/
def renderDeclaration : Candidate :=
  (⟨2, str "render", str "/p/render.hpp", str "cpp", 1, 0, str "render"⟩ : EntityRow).toCandidate

theorem renderDeclaration_local : LocalCandidate polyglot renderCall renderDeclaration where
  entry := by decide
  same_dir := by decide
  not_caller := by decide
  language := by decide
  visible := by decide +kernel
  enabled := by decide

end CodeScope.Resolver
