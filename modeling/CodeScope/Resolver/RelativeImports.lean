import CodeScope.Resolver.Factors

/-! # Relative specifiers as paths

A specifier written in a directory names the normal form of the two put together: the `..` that
have nothing to cancel stay at its front, unless the path is absolute. `relativeImportMatchesFile`
drops them (`importBase_eq`), so that it names a file inside the project for a specifier that leads
out of it. -/

namespace CodeScope.Resolver

open Text (Str str segments)

/-! ## Paths in normal form -/

/-- A path in normal form: the surplus `..` at its front, and the names behind them. -/
structure NormalPath where
  absolute : Bool
  up : ℕ
  names : List Str
deriving DecidableEq

/-- One segment more. Above the root of an absolute path there is nothing. -/
def NormalPath.push (p : NormalPath) (seg : Str) : NormalPath :=
  if seg = str ".." then
    if p.names ≠ [] then { p with names := p.names.dropLast }
    else if p.absolute then p
    else { p with up := p.up + 1 }
  else if seg ≠ [] ∧ seg ≠ str "." then { p with names := p.names ++ [seg] }
  else p

def isAbsolute (path : Str) : Bool := path.head? = some '/'

/-- The lexical normalisation of a path. -/
def normalise (path : Str) : NormalPath :=
  (segments '/' path).foldl NormalPath.push ⟨isAbsolute path, 0, []⟩

/-- `d/s`, a directory that is not given being the one of the project. -/
def joined (dir spec : Str) : Str := if dir = [] then spec else dir ++ '/' :: spec

/-- A name in a path: a segment that is neither a step up nor none at all. -/
def IsName (seg : Str) : Prop := seg ≠ [] ∧ seg ≠ str "." ∧ seg ≠ str ".." ∧ '/' ∉ seg

instance (seg : Str) : Decidable (IsName seg) :=
  inferInstanceAs (Decidable (_ ∧ _ ∧ _ ∧ _))

/-- The normalised path of a file. -/
structure FilePath where
  absolute : Bool
  up : ℕ
  names : List Str
  inside : absolute = true → up = 0
  nonempty : names ≠ []
  valid : ∀ seg ∈ names, IsName seg

namespace FilePath

variable (c : FilePath)

/-- The segments behind the root. -/
def steps : List Str := List.replicate c.up (str "..") ++ c.names

/-- An absolute path begins with an empty segment. -/
def rootSegments (absolute : Bool) : List Str := if absolute then [[]] else []

def text : Str := ['/'].intercalate (rootSegments c.absolute ++ c.steps)

end FilePath

/-- A name without its extension. -/
def stem (name : Str) : Str :=
  match Text.splitLast '.' name with
  | some (before, _) => before
  | none => name

/-- The last name without its extension. -/
def withoutExtension (names : List Str) : List Str :=
  names.dropLast ++ (names.getLast?.map stem).toList

/-- The names are those of the file, those without its extension, or of a directory around it. -/
def NamesFile (names file : List Str) : Prop :=
  file = names ∨ withoutExtension file = names ∨ ∃ more, more ≠ [] ∧ file = names ++ more

/-- What a specifier names by the rules of paths: not the root, and nothing above the directory that
    a relative path starts from. -/
structure Resolves (dir spec : Str) (c : FilePath) : Prop where
  below : (normalise (joined dir spec)).up ≤ (normalise dir).up
  not_root : ¬ ((normalise (joined dir spec)).up = 0 ∧ (normalise (joined dir spec)).names = [])
  up : c.up = (normalise (joined dir spec)).up
  names : NamesFile (normalise (joined dir spec)).names c.names

/-- A specifier that begins with `./` or `../`. -/
def IsRelative (spec : Str) : Prop := str "./" <+: spec ∨ str "../" <+: spec

/-- The matches of a specifier in a directory are those of lexical resolution. -/
def IsLexical (dir spec : Str) : Prop :=
  ∀ c : FilePath, c.absolute = isAbsolute dir →
    (relativeImportMatchesFile dir spec c.text = true ↔ Resolves dir spec c)

/-- The directory is absolute, or no `..` is surplus, or the specifier climbs above the root and
    names nothing there. -/
def KeepsInside (dir spec : Str) : Prop :=
  isAbsolute dir = true ∨ (normalise (joined dir spec)).up = 0 ∨
    ((normalise dir).up < (normalise (joined dir spec)).up ∧
      (normalise (joined dir spec)).names = [])

instance (dir spec : Str) : Decidable (KeepsInside dir spec) :=
  inferInstanceAs (Decidable (_ ∨ _ ∨ _))

/-! ## Normalisation -/

theorem NormalPath.push_names (p : NormalPath) (seg : Str) :
    (p.push seg).names = collapseSegment p.names seg := by
  unfold push collapseSegment
  split_ifs with hup hnames <;> simp_all

theorem NormalPath.push_absolute (p : NormalPath) (seg : Str) :
    (p.push seg).absolute = p.absolute := by
  unfold push
  split_ifs <;> rfl

theorem NormalPath.push_valid {p : NormalPath} (h : ∀ seg ∈ p.names, IsName seg) {seg : Str}
    (hseg : '/' ∉ seg) : ∀ s ∈ (p.push seg).names, IsName s := by
  rw [push_names, collapseSegment]
  intro s hs
  split_ifs at hs with hup hname
  · exact h s (List.mem_of_mem_dropLast hs)
  · rcases List.mem_append.mp hs with hs | hs
    · exact h s hs
    · rw [List.mem_singleton.mp hs]
      exact ⟨hname.1, hname.2, hup, hseg⟩
  · exact h s hs

section Fold

variable (segs : List Str) (p : NormalPath)

theorem names_foldl_push :
    (segs.foldl NormalPath.push p).names = segs.foldl collapseSegment p.names := by
  induction segs generalizing p with
  | nil => rfl
  | cons seg segs ih => rw [List.foldl_cons, List.foldl_cons, ih, NormalPath.push_names]

theorem valid_foldl_push (h : ∀ seg ∈ p.names, IsName seg) (hsegs : ∀ seg ∈ segs, '/' ∉ seg) :
    ∀ seg ∈ (segs.foldl NormalPath.push p).names, IsName seg := by
  induction segs generalizing p with
  | nil => exact h
  | cons seg segs ih =>
      exact ih _ (NormalPath.push_valid h (hsegs seg List.mem_cons_self))
        fun s hs => hsegs s (List.mem_cons_of_mem _ hs)

theorem up_foldl_push (h : p.absolute = true) : (segs.foldl NormalPath.push p).up = p.up := by
  induction segs generalizing p with
  | nil => rfl
  | cons seg segs ih =>
      rw [List.foldl_cons, ih _ (by rw [NormalPath.push_absolute, h]), NormalPath.push]
      split_ifs <;> rfl

end Fold

theorem normalise_valid (path : Str) : ∀ seg ∈ (normalise path).names, IsName seg :=
  valid_foldl_push _ _ (by simp) fun _ => Text.not_mem_of_mem_segments

theorem normalise_up {path : Str} (h : isAbsolute path = true) : (normalise path).up = 0 :=
  up_foldl_push _ _ h

variable {spec : Str}

theorem isAbsolute_under {dir : Str} (hspec : spec.head? = some '.') :
    isAbsolute (joined dir spec) = isAbsolute dir := by
  unfold joined isAbsolute
  cases dir with
  | nil => simp [hspec]
  | cons c dir => simp

/-- **What the code compares with**: the names of the normal form, behind the root. -/
theorem importBase_eq {dir : Str} (hspec : spec.head? = some '.') :
    importBase dir spec =
      if (normalise (joined dir spec)).names = [] then []
      else ['/'].intercalate
        (FilePath.rootSegments (isAbsolute dir) ++ (normalise (joined dir spec)).names) := by
  have hnames : (segments '/' (joined dir spec)).foldl collapseSegment [] =
      (normalise (joined dir spec)).names :=
    (names_foldl_push _ ⟨isAbsolute (joined dir spec), 0, []⟩).symm
  have hvalid := normalise_valid (joined dir spec)
  have habsolute := @isAbsolute_under spec dir hspec
  unfold importBase
  simp only
  rw [show (if dir = [] then spec else dir ++ '/' :: spec) = joined dir spec from rfl, hnames]
  cases hall : (normalise (joined dir spec)).names with
  | nil => rfl
  | cons first rest =>
      rw [hall] at hvalid
      have hne : ['/'].intercalate (first :: rest) ≠ [] := by
        intro hnil
        have hsegs := @Text.segments_intercalate '/' _ (List.cons_ne_nil first rest)
          fun seg hseg => (hvalid seg hseg).2.2.2
        rw [hnil] at hsegs
        obtain ⟨rfl, -⟩ := List.cons.inj hsegs
        exact (hvalid [] List.mem_cons_self).1 rfl
      rw [if_neg hne, if_neg (List.cons_ne_nil first rest), ← habsolute]
      unfold isAbsolute FilePath.rootSegments
      by_cases hroot : (joined dir spec).head? = some '/'
      · simp [hroot, List.intercalate_cons_cons]
      · simp [hroot]

/-! ## Paths by their segments -/

theorem eq_iff_segments {a b : Str} : a = b ↔ segments '/' a = segments '/' b := by
  refine ⟨congrArg _, fun h => ?_⟩
  rw [← Text.intercalate_segments '/' a, h, Text.intercalate_segments]

theorem segments_of_not_mem {s : Str} (h : '/' ∉ s) : segments '/' s = [s] := by
  have hone := @Text.segments_intercalate '/' _ (List.cons_ne_nil s []) (by simpa using h)
  rwa [List.intercalate_singleton] at hone

/-- The extension is looked for behind the last `/`. -/
theorem stripExt_append {a b : Str} (h : '/' ∉ b) :
    stripExt (a ++ '/' :: b) = a ++ '/' :: stem b := by
  unfold stripExt stem
  cases hb : Text.splitLast '.' b with
  | some cut =>
      obtain ⟨hshape, hlast⟩ := Text.splitLast_some.mp hb
      have hafter : '/' ∉ cut.2 := fun hmem => h (by rw [hshape]; simp [hmem])
      have hwhole : Text.splitLast '.' (a ++ '/' :: b) = some (a ++ '/' :: cut.1, cut.2) :=
        Text.splitLast_some.mpr ⟨by rw [hshape, List.append_assoc, List.cons_append], hlast⟩
      simp [hwhole, hafter]
  | none =>
      have hdot := Text.splitLast_none.mp hb
      cases hwhole : Text.splitLast '.' (a ++ '/' :: b) with
      | none => rfl
      | some cut =>
          obtain ⟨hshape, -⟩ := Text.splitLast_some.mp hwhole
          -- the dot stands in `a`, so that the `/` is behind it
          have hslash : '/' ∈ cut.2 := by
            rcases List.append_eq_append_iff.mp hshape with ⟨front, -, heq⟩ | ⟨front, -, heq⟩
            · cases front with
              | nil => exact absurd (List.cons.inj heq).1 (by decide)
              | cons d front => exact absurd (by rw [(List.cons.inj heq).2]; simp) hdot
            · cases front with
              | nil => exact absurd (List.cons.inj heq).1 (by decide)
              | cons d front => rw [(List.cons.inj heq).2]; simp
          simp [hslash]

theorem stripExt_name {b : Str} (h : '/' ∉ b) : stripExt b = stem b := by
  unfold stripExt stem
  cases hb : Text.splitLast '.' b with
  | none => rfl
  | some cut =>
      obtain ⟨hshape, -⟩ := Text.splitLast_some.mp hb
      exact if_neg fun hmem => h (by rw [hshape]; simp [hmem])

theorem stem_subset {b : Str} {c : Char} (h : c ∈ stem b) : c ∈ b := by
  unfold stem at h
  cases hb : Text.splitLast '.' b with
  | none => rwa [hb] at h
  | some cut =>
      rw [hb] at h
      obtain ⟨hshape, -⟩ := Text.splitLast_some.mp hb
      rw [hshape]
      exact List.mem_append_left _ h

/-- Of a path without its extension only the last segment is another. -/
theorem segments_stripExt (path : Str) :
    segments '/' (stripExt path) = withoutExtension (segments '/' path) := by
  obtain ⟨init, last, hsegs⟩ : ∃ init last, segments '/' path = init ++ [last] :=
    ⟨_, _, (List.dropLast_append_getLast (Text.segments_ne_nil '/' path)).symm⟩
  have hfree : ∀ seg ∈ init ++ [last], '/' ∉ seg := fun seg hseg =>
    Text.not_mem_of_mem_segments (hsegs ▸ hseg)
  have hlast : '/' ∉ last := hfree last (by simp)
  have hstem : '/' ∉ stem last := fun hmem => hlast (stem_subset hmem)
  have hgoal : withoutExtension (init ++ [last]) = init ++ [stem last] := by
    simp [withoutExtension]
  rw [hsegs, hgoal]
  by_cases hinit : init = []
  · have hpath : path = last := by
      rw [eq_iff_segments, hsegs, segments_of_not_mem hlast, hinit]
      rfl
    rw [hpath, stripExt_name hlast, segments_of_not_mem hstem, hinit]
    rfl
  · have hfront : segments '/' (['/'].intercalate init) = init :=
      Text.segments_intercalate hinit fun seg hseg => hfree seg (List.mem_append_left _ hseg)
    have hpath : path = ['/'].intercalate init ++ '/' :: last := by
      rw [eq_iff_segments, hsegs, Text.segments_append_sep, hfront, segments_of_not_mem hlast]
    rw [hpath, stripExt_append hlast, Text.segments_append_sep, hfront, segments_of_not_mem hstem]

theorem prefix_iff_segments {base path : Str} :
    base ++ ['/'] <+: path ↔
      ∃ more, more ≠ [] ∧ segments '/' path = segments '/' base ++ more := by
  constructor
  · intro ⟨rest, hrest⟩
    refine ⟨segments '/' rest, Text.segments_ne_nil _ _, ?_⟩
    rw [← hrest, List.append_assoc, List.singleton_append, Text.segments_append_sep]
  · intro ⟨more, hne, hsegs⟩
    refine ⟨['/'].intercalate more, ?_⟩
    rw [List.append_assoc, List.singleton_append, eq_iff_segments, Text.segments_append_sep, hsegs,
      Text.segments_intercalate hne]
    exact fun seg hseg =>
      Text.not_mem_of_mem_segments (s := path) (hsegs ▸ List.mem_append_right _ hseg)

/-! ## What the code matches -/

theorem FilePath.steps_ne_nil (c : FilePath) : c.steps ≠ [] := fun h =>
  c.nonempty (List.append_eq_nil_iff.mp h).2

theorem FilePath.segments_text (c : FilePath) :
    segments '/' c.text = rootSegments c.absolute ++ c.steps := by
  refine Text.segments_intercalate (fun h => c.steps_ne_nil (List.append_eq_nil_iff.mp h).2) ?_
  intro seg hseg
  rcases List.mem_append.mp hseg with hroot | hsteps
  · unfold rootSegments at hroot
    split at hroot
    · rw [List.mem_singleton.mp hroot]
      exact List.not_mem_nil
    · exact absurd hroot List.not_mem_nil
  · rcases List.mem_append.mp hsteps with hup | hname
    · rw [List.eq_of_mem_replicate hup]
      decide
    · exact (c.valid seg hname).2.2.2

theorem withoutExtension_append (front : List Str) {back : List Str} (h : back ≠ []) :
    withoutExtension (front ++ back) = front ++ withoutExtension back := by
  obtain ⟨init, last, rfl⟩ : ∃ init last, back = init ++ [last] :=
    ⟨_, _, (List.dropLast_append_getLast h).symm⟩
  rw [← List.append_assoc]
  simp [withoutExtension]

/-- A path that begins with a step up is named by no names. -/
theorem namesFile_steps_iff {names : List Str} (hvalid : ∀ seg ∈ names, IsName seg)
    (hne : names ≠ []) (c : FilePath) :
    NamesFile names c.steps ↔ c.up = 0 ∧ NamesFile names c.names := by
  cases hup : c.up with
  | zero => simp [FilePath.steps, hup]
  | succ k =>
      refine iff_of_false (fun h => ?_) (fun h => absurd h.1 (Nat.succ_ne_zero k))
      obtain ⟨first, rest, rfl⟩ := List.exists_cons_of_ne_nil hne
      have hfirst : first ≠ str ".." := (hvalid first List.mem_cons_self).2.2.1
      have hsteps : c.steps = str ".." :: (List.replicate k (str "..") ++ c.names) := by
        rw [FilePath.steps, hup, List.replicate_succ, List.cons_append]
      have hbehind : List.replicate k (str "..") ++ c.names ≠ [] := fun h =>
        c.nonempty (List.append_eq_nil_iff.mp h).2
      rw [NamesFile, hsteps] at h
      rcases h with heq | heq | ⟨more, -, heq⟩
      · exact hfirst (List.cons.inj heq).1.symm
      · rw [← List.singleton_append, withoutExtension_append _ hbehind] at heq
        exact hfirst (List.cons.inj heq).1.symm
      · exact hfirst (List.cons.inj heq).1.symm

/-- **What the code matches**: the names of the normal form name the file, which has no step up. -/
theorem matches_iff {dir : Str} (hspec : spec.head? = some '.') (c : FilePath)
    (hkind : c.absolute = isAbsolute dir) :
    relativeImportMatchesFile dir spec c.text = true ↔
      (normalise (joined dir spec)).names ≠ [] ∧ c.up = 0 ∧
        NamesFile (normalise (joined dir spec)).names c.names := by
  have hvalid := normalise_valid (joined dir spec)
  unfold relativeImportMatchesFile
  rw [if_neg (by simp [hspec]), importBase_eq hspec]
  generalize (normalise (joined dir spec)).names = names at hvalid ⊢
  simp only
  by_cases hnames : names = []
  · simp [hnames]
  rw [if_neg hnames]
  have hbase : segments '/' (['/'].intercalate (FilePath.rootSegments (isAbsolute dir) ++ names)) =
      FilePath.rootSegments (isAbsolute dir) ++ names := by
    refine Text.segments_intercalate (fun h => hnames (List.append_eq_nil_iff.mp h).2) ?_
    intro seg hseg
    rcases List.mem_append.mp hseg with hroot | hname
    · unfold FilePath.rootSegments at hroot
      split at hroot
      · rw [List.mem_singleton.mp hroot]
        exact List.not_mem_nil
      · exact absurd hroot List.not_mem_nil
    · exact (hvalid seg hname).2.2.2
  have hbase_ne : ['/'].intercalate (FilePath.rootSegments (isAbsolute dir) ++ names) ≠ [] := by
    intro hnil
    rw [hnil] at hbase
    obtain ⟨first, rest, rfl⟩ := List.exists_cons_of_ne_nil hnames
    have hfirst := (hvalid first List.mem_cons_self).1
    unfold FilePath.rootSegments at hbase
    split at hbase
    · exact absurd (List.cons.inj hbase).2.symm (List.cons_ne_nil _ _)
    · exact hfirst (List.cons.inj hbase).1.symm
  rw [if_neg hbase_ne, Bool.or_eq_true, Bool.or_eq_true, decide_eq_true_eq, decide_eq_true_eq,
    List.isPrefixOf_iff_prefix, eq_iff_segments, eq_iff_segments, segments_stripExt,
    prefix_iff_segments, hbase, c.segments_text, hkind, withoutExtension_append _ c.steps_ne_nil,
    List.append_cancel_left_eq, List.append_cancel_left_eq, ← namesFile_steps_iff hvalid hnames c]
  simp only [List.append_assoc, List.append_cancel_left_eq]
  rw [NamesFile, or_assoc]
  exact ⟨fun h => ⟨hnames, h⟩, fun h => h.2⟩

/-! ## When the matches are those of lexical resolution -/

theorem head_of_isRelative (h : IsRelative spec) : spec.head? = some '.' := by
  rcases h with ⟨rest, rfl⟩ | ⟨rest, rfl⟩ <;> rfl

/-- A file in the directory, one level down. -/
def fileBelow (up : ℕ) (names : List Str) (hvalid : ∀ seg ∈ names, IsName seg) : FilePath where
  absolute := false
  up := up
  names := names ++ [str "x"]
  inside := by simp
  nonempty := by simp
  valid seg hseg := by
    rcases List.mem_append.mp hseg with hseg | hseg
    · exact hvalid seg hseg
    · rw [List.mem_singleton.mp hseg]
      decide

/-- **Relative specifiers are resolved lexically** in a directory exactly when no surplus `..` is
    dropped on the way to a name. -/
theorem relative_import_lexical_iff {dir spec : Str} (hspec : IsRelative spec) :
    IsLexical dir spec ↔ KeepsInside dir spec := by
  have hhead := head_of_isRelative hspec
  have hvalid := normalise_valid (joined dir spec)
  have hcode := fun c (hc : c.absolute = isAbsolute dir) => matches_iff hhead c hc
  unfold KeepsInside
  by_cases hup : (normalise (joined dir spec)).up = 0
  · -- nothing is dropped
    refine iff_of_true (fun c hc => (hcode c hc).trans ?_) (Or.inr (Or.inl hup))
    constructor
    · exact fun ⟨hne, hcup, hnames⟩ =>
        ⟨by omega, fun h => hne h.2, by rw [hup, hcup], hnames⟩
    · exact fun h => ⟨fun hnil => h.not_root ⟨hup, hnil⟩, h.up.trans hup, h.names⟩
  have habsolute : isAbsolute dir = false := by
    rw [← isAbsolute_under hhead, ← Bool.not_eq_true]
    exact fun h => hup (normalise_up h)
  rw [or_iff_right (by simp [habsolute]), or_iff_right hup]
  have hfile : ∀ up, (fileBelow up _ hvalid).absolute = isAbsolute dir := fun _ => habsolute.symm
  have hbelow : NamesFile (normalise (joined dir spec)).names
      ((normalise (joined dir spec)).names ++ [str "x"]) :=
    Or.inr (Or.inr ⟨[str "x"], by simp, rfl⟩)
  constructor
  · intro h
    by_cases hnames : (normalise (joined dir spec)).names = []
    · refine ⟨?_, hnames⟩
      by_contra hclimbs
      -- a file in the directory that the steps up lead to is not matched
      have hresolves : Resolves dir spec (fileBelow _ _ hvalid) :=
        ⟨by omega, fun hroot => hup hroot.1, rfl, hbelow⟩
      exact ((hcode _ (hfile _)).mp ((h _ (hfile _)).mpr hresolves)).1 hnames
    · -- a file inside the project is matched
      have hmatch := (hcode _ (hfile 0)).mpr ⟨hnames, rfl, hbelow⟩
      exact absurd ((h _ (hfile 0)).mp hmatch).up.symm hup
  · intro ⟨hclimbs, hnames⟩ c hc
    exact iff_of_false (fun h => ((hcode c hc).mp h).1 hnames) fun h => absurd h.below (by omega)

/-- `./b` in `src/a` is resolved. -/
theorem relative_import_lexical_sibling : IsLexical (str "src/a") (str "./b") :=
  (relative_import_lexical_iff (Or.inl (by decide))).mpr (by decide)

/-- The file `x` of the project. -/
def topFile : FilePath := fileBelow 0 [] (by simp)

/-- **A specifier that leads out of the project matches a file in it**: `../../x` in `a`. -/
theorem climbing_import_matches :
    ¬ ∀ dir spec, IsRelative spec → IsLexical dir spec := by
  intro h
  have hmatch : relativeImportMatchesFile (str "a") (str "../../x") topFile.text = true := by decide
  have hresolves := (h (str "a") (str "../../x") (Or.inr (by decide)) topFile rfl).mp hmatch
  exact absurd hresolves.below (by decide)

end CodeScope.Resolver
