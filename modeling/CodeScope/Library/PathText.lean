import CodeScope.Library.Text

/-! # Paths as text

A path is read as components: a leading `/` and every segment that is neither empty nor `.`, and a
`.` only at the front. `stripPrefix` compares components and returns the text of what is left;
`join` puts a relative path under a directory. Stripping what was joined gives the relative path
back. -/

namespace PathText

/-- The segment names nothing. -/
def isVacuous (seg : List Char) : Bool := seg = [] || seg = ['.']

/-- A segment after the first, with the component it stands for. -/
def innerPart (seg : List Char) : List Char × Option (List Char) :=
  (seg, if isVacuous seg then none else some seg)

/-- The segments of a non-empty path with their components; an empty first one is the root. -/
def partsOf : List (List Char) → List (List Char × Option (List Char))
  | [] => []
  | first :: rest => (first, some (if first = [] then ['/'] else first)) :: rest.map innerPart

def parts (path : List Char) : List (List Char × Option (List Char)) :=
  if path = [] then [] else partsOf (Text.segments '/' path)

def components (path : List Char) : List (List Char) := (parts path).filterMap (·.2)

/-- Take the components of a base off the front. -/
def stripParts : List (List Char) → List (List Char × Option (List Char)) →
    Option (List (List Char × Option (List Char)))
  | [], ps => some ps
  | _ :: _, [] => none
  | b :: base, (_, none) :: ps => stripParts (b :: base) ps
  | b :: base, (_, some c) :: ps => if c = b then stripParts base ps else none

/-- The text of some parts, without the ones at either end that name nothing. -/
def asPath (ps : List (List Char × Option (List Char))) : List Char :=
  ['/'].intercalate
    (((ps.dropWhile fun part => part.2.isNone).rdropWhile fun part => part.2.isNone).map (·.1))

/-- What is left of a path below a base; `none` when the base is not a prefix. -/
def stripPrefix (path base : List Char) : Option (List Char) :=
  (stripParts (components base) (parts path)).map asPath

/-- A relative path under a directory. -/
def join (dir rel : List Char) : List Char :=
  if dir = [] then rel
  else if dir.getLast? = some '/' then dir ++ rel
  else dir ++ '/' :: rel

/-- Every segment of the path names something. -/
def IsPlain (path : List Char) : Prop := ∀ seg ∈ Text.segments '/' path, isVacuous seg = false

instance (path : List Char) : Decidable (IsPlain path) :=
  inferInstanceAs (Decidable (∀ seg ∈ Text.segments '/' path, isVacuous seg = false))

/-- A relative path in normal form. -/
structure PlainPath where
  path : List Char
  plain : IsPlain path

/-! ## Stripping what was joined -/

theorem partsOf_append {l m : List (List Char)} (hl : l ≠ []) :
    partsOf (l ++ m) = partsOf l ++ m.map innerPart := by
  cases l with
  | nil => exact absurd rfl hl
  | cons first rest => rw [List.cons_append, partsOf, partsOf, List.map_append, List.cons_append]

/-- The components of the front are taken off; only parts that name nothing may stay. -/
theorem stripParts_append (front back : List (List Char × Option (List Char))) :
    ∃ rest, stripParts (front.filterMap (·.2)) (front ++ back) = some (rest ++ back) ∧
      ∀ part ∈ rest, part.2 = none := by
  induction front with
  | nil => exact ⟨[], by rw [List.filterMap_nil, stripParts, List.nil_append], by simp⟩
  | cons part front ih =>
      obtain ⟨seg, comp⟩ := part
      obtain ⟨rest, hstrip, hrest⟩ := ih
      cases comp with
      | some c =>
          have hcons : ((seg, some c) :: front).filterMap (·.2) = c :: front.filterMap (·.2) := rfl
          refine ⟨rest, ?_, hrest⟩
          rw [hcons, List.cons_append, stripParts, if_pos rfl, hstrip]
      | none =>
          have hcons : ((seg, none) :: front).filterMap (·.2) = front.filterMap (·.2) := rfl
          rw [hcons, List.cons_append]
          cases hcomps : front.filterMap (·.2) with
          | nil =>
              refine ⟨(seg, none) :: front, by rw [stripParts]; rfl, ?_⟩
              intro part hmem
              rcases List.mem_cons.mp hmem with rfl | hfront
              · rfl
              · exact (List.filterMap_eq_nil_iff.mp hcomps) part hfront
          | cons b base =>
              refine ⟨rest, ?_, hrest⟩
              rw [stripParts, ← hcomps, hstrip]

/-- Parts that name nothing are cut off in front of parts that all name something. -/
theorem asPath_append {rest : List (List Char × Option (List Char))} {segs : List (List Char)}
    (hrest : ∀ part ∈ rest, part.2 = none) :
    asPath (rest ++ segs.map fun seg => (seg, some seg)) = ['/'].intercalate segs := by
  have hfront : (rest ++ segs.map fun seg => (seg, some seg)).dropWhile
      (fun part => part.2.isNone) = segs.map fun seg => (seg, some seg) := by
    rw [List.dropWhile_append_of_pos]
    · cases segs with
      | nil => rfl
      | cons seg more => rw [List.map_cons, List.dropWhile_cons_of_neg (by simp)]
    · intro part hmem
      rw [hrest part hmem]
      rfl
  have hback : (segs.map fun seg => (seg, some seg)).rdropWhile (fun part => part.2.isNone) =
      segs.map fun seg => (seg, some seg) := by
    rw [List.rdropWhile_eq_self_iff]
    intro hne
    obtain ⟨seg, _, heq⟩ := List.mem_map.mp (List.getLast_mem hne)
    rw [← heq]
    simp
  rw [asPath, hfront, hback, List.map_map]
  exact congrArg _ (List.map_id segs)

theorem IsPlain.map_innerPart {path : List Char} (h : IsPlain path) :
    (Text.segments '/' path).map innerPart =
      (Text.segments '/' path).map fun seg => (seg, some seg) := by
  apply List.map_congr_left
  intro seg hmem
  rw [innerPart, h seg hmem]
  rfl

theorem IsPlain.ne_nil {path : List Char} (h : IsPlain path) : path ≠ [] := by
  rintro rfl
  have hvac := h [] (by simp [Text.segments])
  exact absurd hvac (by decide)

theorem IsPlain.parts_eq {path : List Char} (h : IsPlain path) :
    parts path = (Text.segments '/' path).map fun seg => (seg, some seg) := by
  have hinner := h.map_innerPart
  rw [parts, if_neg h.ne_nil]
  unfold IsPlain at h
  cases hsegs : Text.segments '/' path with
  | nil => rfl
  | cons first rest =>
      rw [hsegs] at h hinner
      have hfirst : first ≠ [] := by
        rintro rfl
        exact absurd (h [] List.mem_cons_self) (by decide)
      rw [List.map_cons, List.map_cons] at hinner
      rw [partsOf, if_neg hfirst, (List.cons.inj hinner).2, List.map_cons]

/-- **What was joined to a directory is what is left when the directory is stripped off.** -/
theorem stripPrefix_join {rel : List Char} (dir : List Char) (hrel : IsPlain rel) :
    stripPrefix (join dir rel) dir = some rel := by
  have hfinish : ∀ front, (stripParts (front.filterMap (·.2))
      (front ++ (Text.segments '/' rel).map innerPart)).map asPath = some rel := by
    intro front
    obtain ⟨rest, hstrip, hrest⟩ :=
      stripParts_append front ((Text.segments '/' rel).map innerPart)
    rw [hstrip, Option.map_some, hrel.map_innerPart, asPath_append hrest,
      Text.intercalate_segments]
  rw [stripPrefix, join]
  split_ifs with hempty hslash
  · have hnone := hfinish []
    rw [hrel.map_innerPart, ← hrel.parts_eq] at hnone
    rw [hempty]
    exact hnone
  · -- the directory ends with a separator, which adds an empty segment to it
    obtain ⟨dir', rfl⟩ : ∃ dir', dir = dir' ++ ['/'] :=
      ⟨dir.dropLast, (List.dropLast_append_getLast? '/' hslash).symm⟩
    have hfront : components (dir' ++ ['/']) =
        (partsOf (Text.segments '/' dir')).filterMap (·.2) := by
      have hsegs : Text.segments '/' (dir' ++ ['/']) = Text.segments '/' dir' ++ [[]] :=
        Text.segments_append_sep '/' dir' []
      rw [components, parts, if_neg hempty, hsegs,
        partsOf_append (Text.segments_ne_nil '/' dir'), List.filterMap_append]
      exact List.append_nil _
    have hpath : parts (dir' ++ ['/'] ++ rel) = partsOf (Text.segments '/' dir') ++
        (Text.segments '/' rel).map innerPart := by
      rw [parts, if_neg (by simp), List.append_assoc, List.singleton_append,
        Text.segments_append_sep, partsOf_append (Text.segments_ne_nil '/' dir')]
    rw [hfront, hpath]
    exact hfinish _
  · have hpath : parts (dir ++ '/' :: rel) = partsOf (Text.segments '/' dir) ++
        (Text.segments '/' rel).map innerPart := by
      rw [parts, if_neg (by simp), Text.segments_append_sep,
        partsOf_append (Text.segments_ne_nil '/' dir)]
    rw [components, parts, if_neg hempty, hpath]
    exact hfinish _

end PathText
