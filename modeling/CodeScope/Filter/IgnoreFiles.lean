import CodeScope.Library.Lines
import CodeScope.Library.Precedence
import CodeScope.Filter.FilterPolicy

/-! # The rules of an ignore file

`loadGitignore` reads `.gitignore` line by line into the list `gitignoreMatches` goes through. In that
notation a later rule overrules an earlier one, and a rule that starts with `!` takes back what the
rules before it excluded. The loop takes back only what it has not excluded yet: it ends at the first
positive rule that applies, so a `!` rule behind it is never looked at. -/

namespace CodeScope.Filter

open Text (Str str)

/-! ## Reading the file -/

/-- The blanks taken off both ends of a line. -/
def isLineBlank (c : Char) : Bool := c = ' ' || c = '\t' || c = '\r'

/-- What is left of a rule's text once its marks are taken off, and the marks. -/
def GitignoreRule.read (line : Str) : GitignoreRule :=
  let negate := line.head? = some '!'
  let unsigned := if negate then line.drop 1 else line
  let dirOnly := unsigned.getLast? = some '/'
  let named := if dirOnly then unsigned.dropLast else unsigned
  let anchored := named.head? = some '/'
  let pattern := if anchored then named.drop 1 else named
  { pattern, negate, dirOnly, anchored, hasStar := '*' ∈ pattern }

/-- A line's rule: blank lines, comments and lines of marks alone have none. -/
def parseIgnoreLine (raw : Str) : Option GitignoreRule :=
  let line := Text.trim isLineBlank raw
  if line = [] || line.head? = some '#' then none
  else if (GitignoreRule.read line).pattern = [] then none
  else some (GitignoreRule.read line)

/-- The rules of a text, in the order of its lines. -/
def parseIgnoreFile (text : Str) : List GitignoreRule :=
  (Lines.lines '\n' text).filterMap fun line => parseIgnoreLine (Lines.payload '\n' line)

/-- `file` is the content of `.gitignore` when it can be opened. -/
def FilterPolicy.loadGitignore (policy : FilterPolicy) (file : Option Str) (append : Bool) :
    FilterPolicy × Bool :=
  match file with
  | none => (policy, false)
  | some text =>
    let rules := (if append then policy.gitignoreRules else []) ++ parseIgnoreFile text
    ({ policy with gitignoreRules := rules }, !rules.isEmpty)

/-! ## Precedence -/

section Precedence

variable (relPath : Str) (isDir : Bool)

/-- The last rule that applies to the entry is not a negation. -/
def lastRuleExcludes (rules : List GitignoreRule) : Bool :=
  Precedence.lastClaims (·.applies relPath isDir) (·.negate) rules

/-- A negation that applies stands behind a positive rule that applies, and no positive rule that
    applies stands behind the negation. -/
def Reincluded (rules : List GitignoreRule) : Prop :=
  Precedence.TakenBack (·.applies relPath isDir) (·.negate) rules

variable {relPath isDir}

theorem gitignoreMatches_eq (rules : List GitignoreRule) :
    gitignoreMatches rules relPath isDir =
      Precedence.someClaims (·.applies relPath isDir) (·.negate) rules := by
  rw [gitignoreMatches, Precedence.someClaims]
  induction rules with
  | nil => rfl
  | cons r rules ih =>
      rw [gitignoreLoop, List.any_cons, ← ih]
      cases happ : r.applies relPath isDir with
      | false => rfl
      | true =>
          cases hneg : r.negate with
          | false => rfl
          | true => rfl

/-- **The loop follows the last rule that applies exactly when no excluded entry is taken back**:
    for the rules of every file, read into an empty or a filled list, and for every entry. -/
theorem gitignore_precedence_iff (policy : FilterPolicy) (text : Str) (append : Bool)
    (relPath : Str) (isDir : Bool) :
    (gitignoreMatches (policy.loadGitignore (some text) append).1.gitignoreRules relPath isDir
          = true ↔
        lastRuleExcludes relPath isDir
          (policy.loadGitignore (some text) append).1.gitignoreRules = true) ↔
      ¬ Reincluded relPath isDir (policy.loadGitignore (some text) append).1.gitignoreRules := by
  rw [Reincluded, ← Precedence.someClaims_eq_lastClaims_iff, gitignoreMatches_eq, lastRuleExcludes]
  exact Bool.eq_iff_iff.symm

/-- The second line takes `keep.c` back, and `keep.c` is ignored. -/
theorem negation_behind_match_unseen :
    gitignoreMatches (parseIgnoreFile (str "*.c\n!keep.c\n")) (str "keep.c") false = true ∧
      lastRuleExcludes (str "keep.c") false (parseIgnoreFile (str "*.c\n!keep.c\n")) = false := by
  decide +kernel

end Precedence

end CodeScope.Filter
