import CodeScope.Library.Text

/-! # The factors

The evidence functions of `factors.h` and `factors.cpp`: languages and their compatibility, the
relative import comparison, type-name spelling, and the score each factor gives a candidate. A
`std::string` is a list of characters, `tolower`, `isalnum` and `isspace` are those of the C
locale, and a score is a rational where the source has the double of that decimal. -/

namespace CodeScope.Resolver

open Text (Str str lower)

/-! ## Languages -/

/-- The extension of a path in lower case, with its dot: what follows the last `.`, directories
    included; empty when there is no `.`. -/
def lowerExtension (filePath : Str) : Str :=
  match Text.splitLast '.' filePath with
  | some (_, ext) => lower ('.' :: ext)
  | none => []

def languageFromPath (filePath : Str) : Str :=
  let ext := lowerExtension filePath
  if ext ∈ [str ".cpp", str ".cc", str ".cxx", str ".c", str ".h", str ".hpp", str ".hh",
      str ".hxx"] then str "cpp"
  else if ext = str ".rs" then str "rust"
  else if ext = str ".py" then str "python"
  else if ext = str ".go" then str "go"
  else if ext = str ".ts" ∨ ext = str ".tsx" then str "typescript"
  else if ext = str ".js" ∨ ext = str ".jsx" then str "javascript"
  else if ext = str ".java" then str "java"
  else []

def allowsDefaultArguments (filePath : Str) : Bool :=
  languageFromPath filePath ∈
    [str "cpp", str "python", str "javascript", str "typescript", str "java"]

/-- `kCFamily` -/
def cFamily : List Str :=
  [str "c", str "cpp", str "c++", str "cxx", str "objc", str "objective-c"]

/-- `kJsFamily` -/
def jsFamily : List Str := [str "javascript", str "typescript", str "tsx"]

def languagesCompatible (a b : Str) : Bool :=
  a = [] || b = [] || a = b || (a ∈ cFamily && b ∈ cFamily) || (a ∈ jsFamily && b ∈ jsFamily)

/-! ## Paths -/

/-- The directory of a path: up to its last `/`, empty when there is none. -/
def dirOf (path : Str) : Str := Text.beforeLast '/' path

/-- The last token of a directory. -/
def moduleToken (dir : Str) : Str := Text.afterLast '/' dir

/-- Both paths contain a `/` and agree up to their last one. -/
def sameDir (a b : Str) : Bool :=
  match Text.splitLast '/' a, Text.splitLast '/' b with
  | some (dirA, _), some (dirB, _) => dirA = dirB
  | _, _ => false

/-- One segment of the joined specifier: `..` pops, `.` and empty segments are dropped. -/
def collapseSegment (parts : List Str) (seg : Str) : List Str :=
  if seg = str ".." then parts.dropLast
  else if seg ≠ [] ∧ seg ≠ str "." then parts ++ [seg]
  else parts

/-- The path without the extension of its last component. -/
def stripExt (path : Str) : Str :=
  match Text.splitLast '.' path with
  | some (before, after) => if '/' ∈ after then path else before
  | none => path

/-- The path a specifier names: the collapsed segments, with the root put back. -/
def importBase (callerDir spec : Str) : Str :=
  let joined := if callerDir = [] then spec else callerDir ++ '/' :: spec
  let parts := (Text.segments '/' joined).foldl collapseSegment []
  let base := List.intercalate ['/'] parts
  if base = [] then []
  else if joined.head? = some '/' then '/' :: base
  else base

def relativeImportMatchesFile (callerDir spec candidateFile : Str) : Bool :=
  if spec.head? ≠ some '.' then false
  else
    let base := importBase callerDir spec
    if base = [] then false
    else candidateFile = base || stripExt candidateFile = base ||
      (base ++ ['/']).isPrefixOf candidateFile

/-! ## Type names -/

def isSpace (c : Char) : Bool := c ∈ [' ', '\t', '\n', '\x0b', '\x0c', '\r']

/-- The bare type name; empty for a composite spelling. -/
def canonicalTypeName (typeName : Str) : Str :=
  let text := Text.trim (fun c => c = '*' || c = '&' || isSpace c) typeName
  if text.all fun c => c = '.' || c = ':' || c.isAlphanum || c = '_' then
    Text.afterLast '.' (Text.afterLast ':' text)
  else []

/-! ## Weights and scores -/

def kWeightModuleMatch : ℚ := 15 / 100
def kWeightImportMatch : ℚ := 80 / 100
def kWeightImportModuleMatch : ℚ := 90 / 100
def kWeightNamespaceMatch : ℚ := 10 / 100
def kWeightSignatureMatch : ℚ := 10 / 100
def kWeightDistanceMatch : ℚ := 5 / 100
def kWeightConstructorMatch : ℚ := 10 / 100
def kWeightReceiverMatch : ℚ := 15 / 100
def kWeightCommonNamePenalty : ℚ := 10 / 100
def kWeightCallKindMatch : ℚ := 15 / 100
def kWeightDefinitionMatch : ℚ := 20 / 100

def kCallKindDirect : Int := 0
def kCallKindMethod : Int := 1
def kCallKindInterface : Int := 2
def kCallKindConstructor : Int := 3

def kScoreExactMatch : ℚ := 1
def kScorePartialMatch : ℚ := 5 / 10
def kScorePenalty : ℚ := -5 / 10
def kScoreSiblingModule : ℚ := 5 / 10
def kScoreSameDirectory : ℚ := 3 / 10
def kScoreWeakFilenameMatch : ℚ := 2 / 10

def kResolutionThreshold : ℚ := 40 / 100
def kAmbiguityMargin : ℚ := 15 / 100
def kCommonNamePenaltyValue : ℚ := 25 / 100

inductive Factor where
  | moduleMatch
  | importMatch
  | importModuleMatch
  | namespaceMatch
  | signatureMatch
  | distanceMatch
  | constructorMatch
  | receiverMatch
  | commonNamePenalty
  | callKindMatch
  | definitionMatch
deriving DecidableEq, Repr

/-- The name a factor is accumulated under. -/
def Factor.name : Factor → Str
  | .moduleMatch => str "ModuleMatch"
  | .importMatch => str "ImportMatch"
  | .importModuleMatch => str "ImportModuleMatch"
  | .namespaceMatch => str "NamespaceMatch"
  | .signatureMatch => str "SignatureMatch"
  | .distanceMatch => str "DistanceMatch"
  | .constructorMatch => str "ConstructorMatch"
  | .receiverMatch => str "ReceiverMatch"
  | .commonNamePenalty => str "CommonNamePenalty"
  | .callKindMatch => str "CallKindMatch"
  | .definitionMatch => str "DefinitionMatch"

/-- The factor dropped by the value of `CODESCOPE_RESOLVER_DISABLE_FACTOR`; a value that is no
    factor name drops none. -/
def disabledFactor (value : Str) : Option Factor :=
  [Factor.moduleMatch, .importMatch, .importModuleMatch, .namespaceMatch, .signatureMatch,
    .distanceMatch, .constructorMatch, .receiverMatch, .commonNamePenalty, .callKindMatch,
    .definitionMatch].find? fun factor => factor.name = value

/-- The label of an edge decided by a factor; empty when the factor has none. -/
def resolutionKindFromFactor : Factor → Str
  | .receiverMatch => str "receiver_type"
  | .importMatch => str "imported"
  | .importModuleMatch => str "import_module"
  | .signatureMatch => str "signature"
  | .definitionMatch => str "definition"
  | .constructorMatch => str "constructor"
  | .callKindMatch => str "call_kind"
  | .distanceMatch => str "distance"
  | .namespaceMatch => str "namespace"
  | .moduleMatch => str "module"
  | .commonNamePenalty => []

/-! ## The factors themselves -/

def factorSignatureMatch (callerArity candidateArity : Int) : ℚ :=
  if callerArity = 0 ∧ candidateArity = 0 then kScorePartialMatch
  else if callerArity = candidateArity then kScoreExactMatch
  else if candidateArity = 0 then kScorePartialMatch
  else kScorePenalty

/-- Kinds 2 and 3 are Class and Struct. -/
def factorConstructorMatch (refName candidateName : Str) (candidateKind : Int) : ℚ :=
  if candidateKind ≠ 2 ∧ candidateKind ≠ 3 then 0
  else if refName = candidateName then kScoreExactMatch
  else 0

/-- What receiver matching reads of the reference; `none` when the type is unknown. -/
structure ReceiverMatchContext where
  prefix1 : Str
  prefix2 : Str
  rtypeLower : Str

def buildReceiverMatchContext (receiverType : Str) : Option ReceiverMatchContext :=
  let canonical := canonicalTypeName receiverType
  if canonical = [] then none
  else some ⟨canonical ++ str "::", canonical ++ str ".", lower canonical⟩

def factorReceiverTypeMatchPrecomp (ctx : Option ReceiverMatchContext)
    (candidateQname candidateFile : Str) : ℚ :=
  match ctx with
  | none => 5 / 10
  | some ctx =>
    if ctx.prefix1.isPrefixOf candidateQname || ctx.prefix2.isPrefixOf candidateQname then
      kScoreExactMatch
    else if Text.contains ctx.prefix1 candidateQname || Text.contains ctx.prefix2 candidateQname then
      kScorePartialMatch
    else if Text.contains ctx.rtypeLower (lower (Text.afterLast '/' candidateFile)) then
      kScoreWeakFilenameMatch
    else 0

/-- `kCommonNames` -/
def commonNames : List Str :=
  ["Len", "Init", "Run", "Stop", "Close", "Open", "Read", "Write", "Get", "Set", "Add", "Remove",
    "Update", "Delete", "Create", "New", "Process", "Handle", "Execute", "Start", "End", "Error",
    "String", "Format", "Marshal", "Unmarshal", "Equals", "Compare", "Hash", "Copy", "Clone",
    "Reset", "Clear", "IsEmpty", "IsValid", "HasNext", "Next", "Previous", "First", "Last",
    "Value", "Key", "Int", "Float", "Bool", "Bytes", "Size", "Cap"].map String.toList

def factorCommonNamePenalty (name : Str) : ℚ :=
  if name ∈ commonNames then kCommonNamePenaltyValue else 0

def isLowerAscii (c : Char) : Bool := 'a' ≤ c && c ≤ 'z'

/-- Language visibility: an unexported Go name is seen in its own directory, a `_` name of Python
    in its own file, and a lower-case name of Java, Kotlin or C# everywhere at half weight. -/
def factorVisibilityCheck (language candidateName callerFile candidateFile : Str) : ℚ :=
  match candidateName with
  | [] => 1
  | first :: _ =>
    if language = str "go" && isLowerAscii first then
      if dirOf callerFile = dirOf candidateFile then 1 else 0
    else if language = str "python" && first = '_' then
      if callerFile = candidateFile then 1 else 0
    else if language ∈ [str "java", str "kotlin", str "csharp"] && isLowerAscii first then 5 / 10
    else 1

def isCppSourceFile (filePath : Str) : Bool :=
  lowerExtension filePath ∈ [str ".c", str ".cpp", str ".cc", str ".cxx", str ".c++", str ".m",
    str ".mm"]

def isCppHeaderFile (filePath : Str) : Bool :=
  lowerExtension filePath ∈ [str ".h", str ".hpp", str ".hh", str ".hxx", str ".h++", str ".inl",
    str ".ipp", str ".tpp", str ".tcc"]

def factorDefinitionMatch (language candidateFile : Str) : ℚ :=
  if language ≠ str "cpp" then 1
  else if isCppSourceFile candidateFile then kScoreExactMatch
  else if isCppHeaderFile candidateFile then kScorePenalty
  else 1

/-! ## What the factors can return -/

theorem factorDefinitionMatch_eq (language candidateFile : Str) :
    factorDefinitionMatch language candidateFile =
      if language = str "cpp" ∧ isCppSourceFile candidateFile = false ∧
        isCppHeaderFile candidateFile = true then kScorePenalty else 1 := by
  unfold factorDefinitionMatch kScoreExactMatch
  by_cases hlang : language = str "cpp"
  · cases hsource : isCppSourceFile candidateFile <;>
      cases hheader : isCppHeaderFile candidateFile <;> simp [hlang]
  · simp [hlang]

/-! ## Imports of files at the root -/

theorem mem_collapse {segs parts : List Str} {seg : Str}
    (h : seg ∈ segs.foldl collapseSegment parts) :
    seg ∈ parts ∨ (seg ∈ segs ∧ seg ≠ []) := by
  induction segs generalizing parts with
  | nil => exact Or.inl h
  | cons s rest ih =>
      rcases ih h with hparts | ⟨hrest, hne⟩
      · unfold collapseSegment at hparts
        split_ifs at hparts with hpop hkeep
        · exact Or.inl (List.mem_of_mem_dropLast hparts)
        · rcases List.mem_append.mp hparts with hold | hnew
          · exact Or.inl hold
          · have heq : seg = s := List.mem_singleton.mp hnew
            exact Or.inr ⟨by rw [heq]; simp, by rw [heq]; exact hkeep.1⟩
        · exact Or.inl hparts
      · exact Or.inr ⟨List.mem_cons_of_mem _ hrest, hne⟩

/-- Without a caller directory a relative specifier names a path that is not absolute. -/
theorem importBase_head {spec : Str} (hspec : spec.head? = some '.') :
    (importBase [] spec).head? ≠ some '/' := by
  unfold importBase
  simp only [if_true, hspec]
  have hnotroot : ¬ some '.' = some '/' := by decide
  split_ifs with hbase
  · simp
  · cases hparts : (Text.segments '/' spec).foldl collapseSegment [] with
    | nil => rw [hparts] at hbase; simp [List.intercalate] at hbase
    | cons first rest =>
        have hmem : first ∈ (Text.segments '/' spec).foldl collapseSegment [] := by
          rw [hparts]; simp
        rcases mem_collapse hmem with hnil | ⟨hseg, hne⟩
        · simp at hnil
        · have hslash := Text.not_mem_of_mem_segments hseg
          cases first with
          | nil => exact absurd rfl hne
          | cons c seg =>
              have hc : c ≠ '/' := fun heq => hslash (by rw [heq]; simp)
              cases rest with
              | nil | cons second others => simpa [List.intercalate] using hc

/-- **An absolute file is named by no relative specifier of a caller without a directory**: the
    specifier collapses to a path that is not absolute. -/
theorem relativeImportMatchesFile_root {spec candidateFile base : Str}
    (hcand : candidateFile = '/' :: base) :
    relativeImportMatchesFile [] spec candidateFile = false := by
  unfold relativeImportMatchesFile
  split_ifs with hspec
  · rfl
  · have hhead := importBase_head (Decidable.not_not.mp hspec)
    dsimp only
    split_ifs with hempty
    · rfl
    · have hstrip : (stripExt candidateFile).head? = some '/' := by
        unfold stripExt
        split
        · rename_i before after hsplit
          obtain ⟨hshape, -⟩ := Text.splitLast_some.mp hsplit
          split_ifs with hafter
          · rw [hcand]; rfl
          · cases before with
            | nil =>
                rw [hcand] at hshape
                exact absurd (List.cons.inj hshape).1 (by decide)
            | cons c before' =>
                rw [hcand] at hshape
                rw [← (List.cons.inj hshape).1]
                rfl
        · rw [hcand]; rfl
      have hwhole : candidateFile ≠ importBase [] spec := by
        intro heq
        rw [← heq, hcand] at hhead
        exact hhead rfl
      have hstripped : stripExt candidateFile ≠ importBase [] spec := by
        intro heq
        rw [heq] at hstrip
        exact hhead hstrip
      have hprefix : (importBase [] spec ++ ['/']).isPrefixOf candidateFile = false := by
        cases himport : importBase [] spec with
        | nil => exact absurd himport hempty
        | cons c rest =>
            rw [himport] at hhead
            have hc : c ≠ '/' := fun heq => hhead (by rw [heq]; rfl)
            simp [hcand, List.isPrefixOf, hc]
      simp [hwhole, hstripped, hprefix]

end CodeScope.Resolver
