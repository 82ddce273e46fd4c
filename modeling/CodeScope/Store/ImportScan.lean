import CodeScope.Library.Text
import Mathlib.Data.List.Basic

/-! # Scanning import texts

An import record holds the text of the import. `buildGraph` reads the paths off it: what stands in
quotes, what stands between `use` and the semicolon, what stands between `from` and `import`. The
paths of a text are written in batches. -/

namespace CodeScope.Store

open Text (Str str)

/-! ## Cutting -/

/-- What stands before the first occurrence of a text, and what stands behind it. -/
def cut (sub : Str) : Str → Option (Str × Str)
  | [] => if sub = [] then some ([], []) else none
  | c :: rest =>
    if sub.isPrefixOf (c :: rest) then some ([], (c :: rest).drop sub.length)
    else (cut sub rest).map fun p => (c :: p.1, p.2)

theorem cut_eq_some {sub s before after : Str} (h : cut sub s = some (before, after)) :
    s = before ++ sub ++ after := by
  induction s generalizing before after with
  | nil =>
      rw [cut] at h
      split_ifs at h with hsub
      · obtain ⟨rfl, rfl⟩ := Prod.mk.inj (Option.some.inj h)
        rw [hsub]
        rfl
  | cons c rest ih =>
      rw [cut] at h
      split_ifs at h with hprefix
      · obtain ⟨rfl, rfl⟩ := Prod.mk.inj (Option.some.inj h)
        obtain ⟨tail, htail⟩ := List.isPrefixOf_iff_prefix.mp hprefix
        rw [List.nil_append, ← htail, List.drop_left]
      · obtain ⟨⟨before', after'⟩, hrest, heq⟩ := Option.map_eq_some_iff.mp h
        obtain ⟨rfl, rfl⟩ := Prod.mk.inj heq
        rw [ih hrest]
        rfl

theorem length_cut {sub s before after : Str} (h : cut sub s = some (before, after)) :
    before.length + sub.length + after.length = s.length := by
  rw [cut_eq_some h, List.length_append, List.length_append]

/-- Drop the blanks at both ends. -/
def trimBlanks (s : Str) : Str := Text.trim (fun c => c = ' ' || c = '\t') s

/-! ## The three scans -/

/-- The texts in quotes that have a dot; `quote` is the open quote and what follows it. -/
def quotedPaths (quote : Option (Char × Str)) : Str → List Str
  | [] => []
  | c :: rest =>
    match quote with
    | none => if c = '"' ∨ c = '\'' then quotedPaths (some (c, [])) rest else quotedPaths none rest
    | some (q, path) =>
      if c = q then
        if '.' ∈ path then path :: quotedPaths none rest else quotedPaths none rest
      else quotedPaths (some (q, path ++ [c])) rest

/-- `use a::b;` -/
def usePaths (text : Str) : List Str :=
  match _huse : cut (str "use ") text with
  | none => []
  | some (_, behind) =>
    match _hsemi : cut [';'] behind with
    | none => []
    | some (inner, rest) =>
      let path := trimBlanks inner
      if Text.contains (str "::") path then path :: usePaths rest else usePaths rest
termination_by text.length
decreasing_by
  all_goals
    have h := length_cut _huse
    have h' := length_cut _hsemi
    have hlen : (str "use ").length = 4 := rfl
    omega

/-- `from a import b`. Where ` import ` starts with the blank behind `from`, the length of the path
    wraps around and the path is the rest of the text. -/
def fromPaths (text : Str) : List Str :=
  match _hfrom : cut (str "from ") text with
  | none => []
  | some (_, behind) =>
    match _himport : cut (str " import ") (' ' :: behind) with
    | none => []
    | some (inner, rest) =>
      let path := trimBlanks (if inner = [] then behind else inner.drop 1)
      if path = [] then fromPaths rest else path :: fromPaths rest
termination_by text.length
decreasing_by
  all_goals
    have h := length_cut _hfrom
    have h' := length_cut _himport
    have hlen : (str "from ").length = 5 := rfl
    have hlen' : (str " import ").length = 8 := rfl
    rw [List.length_cons] at h'
    omega

/-! ## Rows and batches -/

/-- One import to be written. -/
structure PathRec where
  path : Str
  aliasName : Str
  file : Str
deriving DecidableEq

/-- The last segment of a path; behind `::` the alias keeps the second colon. -/
def aliasOf (path : Str) : Str :=
  match Text.splitLast '/' path with
  | some (_, after) => after
  | none =>
    match cut (str "::") path.reverse with
    | some (after, _) => ':' :: after.reverse
    | none => path

def pathRecs (text file : Str) : List PathRec :=
  (quotedPaths none text ++ usePaths text ++ fromPaths text).map fun p => ⟨p, aliasOf p, file⟩

def kMaxBatch : ℕ := 500

/-- The batches in which rows are flushed: `batch` is the one that fills. -/
def importBatches (batch : List PathRec) : List PathRec → List (List PathRec)
  | [] => if batch = [] then [] else [batch]
  | p :: rest =>
    if kMaxBatch ≤ (batch ++ [p]).length then (batch ++ [p]) :: importBatches [] rest
    else importBatches (batch ++ [p]) rest

theorem flatten_importBatches (batch paths : List PathRec) :
    (importBatches batch paths).flatten = batch ++ paths := by
  induction paths generalizing batch with
  | nil =>
      rw [importBatches]
      split_ifs with hempty
      · rw [hempty]
        rfl
      · simp
  | cons p rest ih =>
      rw [importBatches]
      split_ifs
      · rw [List.flatten_cons, ih, List.nil_append, List.append_assoc, List.singleton_append]
      · rw [ih, List.append_assoc, List.singleton_append]

end CodeScope.Store
