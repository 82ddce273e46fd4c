import CodeScope.Library.SyntaxTree
import CodeScope.Util.ACMatch

/-! # The node dispatcher that all visitors share

`JsVisitor::visitNode` looks a node's kind up in an automaton of JavaScript kinds and their parts.
The visitors of the other languages hand it every node they have no handler for, so a kind of
another grammar is dispatched by the longest pattern that happens to stand in it. -/

namespace CodeScope.Visitor

open Text (Str str Spelt str_eq contains contains_iff_infix)
open Util (ACAutomaton)

/-- The bytes of a node kind. -/
def bytesOf (kind : Str) : List UInt8 := kind.map fun c => c.toNat.toUInt8

/-- The `addPattern` calls of `JsACHolder`, in order. -/
def jsPatterns : List (Str × ℤ) :=
  [(str "function_declaration", 100), (str "generator_function_declaration", 100),
    (str "arrow_function", 101), (str "class_declaration", 102), (str "method_definition", 103),
    (str "call_expression", 104), (str "identifier", 105), (str "variable_declaration", 106),
    (str "lexical_declaration", 106), (str "import_statement", 107), (str "import", 107),
    (str "export_statement", 108), (str "export", 108), (str "member_expression", 109),
    (str "new_expression", 110), (str "number", 200), (str "string", 200),
    (str "template_string", 200), (str "true", 200), (str "false", 200), (str "null", 200),
    (str "undefined", 200), (str "regex", 200), (str "comment", 201),
    (str "return_statement", 300), (str "if_statement", 300), (str "for_statement", 300),
    (str "for_in_statement", 300), (str "for_of_statement", 300), (str "while_statement", 300),
    (str "do_statement", 300), (str "switch_statement", 300), (str "switch_case", 300),
    (str "try_statement", 300), (str "catch_clause", 111), (str "throw_statement", 300),
    (str "binary_expression", 300), (str "unary_expression", 300),
    (str "assignment_expression", 300), (str "ternary_expression", 300),
    (str "subscript_expression", 300), (str "await_expression", 300),
    (str "yield_expression", 300)]

/-- The patterns, for evaluation. -/
def spelledPatterns : Spelt jsPatterns := by
  apply Subtype.mk
  repeat
    apply congrArg₂ List.cons
    · exact congrArg (·, _) (str_eq rfl)
  rfl

def patternBytes : List (List UInt8 × ℤ) := jsPatterns.map fun p => (bytesOf p.1, p.2)

/-- `getJsAC`: the automaton that `JsACHolder` builds. -/
def getJsAC : Option ACAutomaton := (ACAutomaton.ofPatterns patternBytes).build

/-- `getJsAC().match(type)`: the id by which `JsVisitor::visitNode` branches. -/
def nodeId (kind : Str) : Option ℤ := getJsAC.bind fun ac => ac.match_ (bytesOf kind)

/-! ## The id of a kind -/

/-- A text of ASCII characters, none of them NUL. -/
def plainKind (kind : Str) : Bool := kind.all fun c => 0 < c.toNat && c.toNat < 128

theorem ofNat_toUInt8 {c : Char} (hc : c.toNat < 128) : Char.ofNat c.toNat.toUInt8.toNat = c := by
  rw [Nat.toUInt8_eq, UInt8.toNat_ofNat', Nat.mod_eq_of_lt (by omega), Char.ofNat_toNat]

variable {kind : Str}

theorem map_bytesOf (h : plainKind kind = true) :
    (bytesOf kind).map (fun b => Char.ofNat b.toNat) = kind := by
  rw [plainKind, List.all_eq_true] at h
  rw [bytesOf, List.map_map]
  conv_rhs => rw [← List.map_id kind]
  refine List.map_congr_left fun c hc => ?_
  have hrange := h c hc
  simp only [Bool.and_eq_true, decide_eq_true_eq] at hrange
  exact ofNat_toUInt8 hrange.2

theorem infix_bytesOf {p : Str} (hp : plainKind p = true) (hk : plainKind kind = true) :
    bytesOf p <:+: bytesOf kind ↔ p <:+: kind := by
  constructor
  · intro h
    have hmap := h.map fun b => Char.ofNat b.toNat
    rwa [map_bytesOf hp, map_bytesOf hk] at hmap
  · exact fun h => h.map _

theorem zero_not_mem_bytesOf (h : plainKind kind = true) : 0 ∉ bytesOf kind := by
  intro hzero
  obtain ⟨c, hc, hbyte⟩ := List.mem_map.mp hzero
  rw [plainKind, List.all_eq_true] at h
  have hrange := h c hc
  simp only [Bool.and_eq_true, decide_eq_true_eq] at hrange
  have hnat := congrArg UInt8.toNat hbyte
  rw [Nat.toUInt8_eq, UInt8.toNat_ofNat', Nat.mod_eq_of_lt (by omega), UInt8.toNat_zero] at hnat
  omega

theorem plainKind_patterns : ∀ p ∈ jsPatterns, plainKind p.1 = true := by decide +kernel

/-- **The id of a kind** is 0 when no pattern stands in it, and otherwise that of a pattern that
    does. -/
theorem nodeId_cases (h : plainKind kind = true) :
    (nodeId kind = some 0 ∧ ∀ p ∈ jsPatterns, ¬ p.1 <:+: kind) ∨
      ∃ p ∈ jsPatterns, p.1 <:+: kind ∧ nodeId kind = some p.2 := by
  obtain ⟨ac, best, hbuild, hmatch, hbest⟩ :=
    ACAutomaton.match_spec patternBytes (bytesOf kind) (by decide +kernel) (by decide +kernel)
      (zero_not_mem_bytesOf h)
  have hid : nodeId kind = some best.id := by
    rw [nodeId, getJsAC, hbuild, Option.bind_some, hmatch]
  rw [hid]
  rcases hbest with ⟨rfl, hnone⟩ | ⟨w, ⟨hw, k, hends, -⟩, -⟩
  · refine Or.inl ⟨rfl, fun p hp hin => ?_⟩
    obtain ⟨k, hends⟩ := ACAutomaton.infix_iff_endsAt.mp
      ((infix_bytesOf (plainKind_patterns p hp) h).mpr hin)
    refine hnone (bytesOf p.1) ?_ k hends
    exact List.mem_map.mpr ⟨_, List.mem_map_of_mem hp, rfl⟩
  · right
    obtain ⟨p, hp, heq⟩ := List.mem_map.mp (ACAutomaton.idOf_mem hw)
    obtain ⟨rfl, hbestId⟩ := Prod.mk.inj heq
    have hin := ACAutomaton.infix_iff_endsAt.mpr ⟨k, hends⟩
    exact ⟨p, hp, (infix_bytesOf (plainKind_patterns p hp) h).mp hin, congrArg some hbestId.symm⟩

/-- The id of the patterns in a kind when they agree on it; the automaton decides elsewhere. -/
def agreedId (kind : Str) : Option ℤ :=
  if plainKind kind then
    match (jsPatterns.filter fun p => contains p.1 kind).map Prod.snd with
    | [] => some 0
    | id :: ids => if ids.all (· == id) then some id else nodeId kind
  else nodeId kind

/-- Kinds can be looked up without running the automaton. -/
theorem nodeId_eq_agreedId : nodeId = agreedId := by
  funext kind
  by_cases hplain : plainKind kind = true
  · have hmem : ∀ {id : ℤ}, id ∈ (jsPatterns.filter fun p => contains p.1 kind).map Prod.snd ↔
        ∃ p ∈ jsPatterns, p.1 <:+: kind ∧ p.2 = id := by
      intro id
      simp only [List.mem_map, List.mem_filter, contains_iff_infix, and_assoc]
    rw [agreedId, if_pos hplain]
    generalize (jsPatterns.filter fun p => contains p.1 kind).map Prod.snd = ids at hmem
    cases ids with
    | nil =>
        rcases nodeId_cases hplain with ⟨hzero, -⟩ | ⟨p, hp, hin, -⟩
        · exact hzero
        · exact absurd (hmem.mpr ⟨p, hp, hin, rfl⟩) List.not_mem_nil
    | cons id ids =>
        dsimp only
        split
        · next hall =>
            rcases nodeId_cases hplain with ⟨-, hnone⟩ | ⟨p, hp, hin, hid⟩
            · obtain ⟨p, hp, hin, -⟩ := hmem.mp List.mem_cons_self
              exact absurd hin (hnone p hp)
            · rcases List.mem_cons.mp (hmem.mpr ⟨p, hp, hin, rfl⟩) with heq | hrest
              · rw [hid, heq]
              · rw [hid, beq_iff_eq.mp (List.all_eq_true.mp hall _ hrest)]
        · rfl
  · rw [agreedId, if_neg hplain]
/-- The patterns in the kind are those of nodes that are passed through: 300, and 111, the catch
    clause. -/
def passesThrough (kind : Str) : Bool :=
  plainKind kind && jsPatterns.all fun p => p.2 == 300 || p.2 == 111 || !contains p.1 kind

/-- The ids of nodes whose children are not visited: identifiers, imports, literals, comments. -/
def leafIds : List ℤ := [105, 107, 200, 201]

/-- The patterns in the kind, one at least, are those of leaves. -/
def isLeafKind (kind : Str) : Bool :=
  plainKind kind && (jsPatterns.any fun p => contains p.1 kind) &&
    jsPatterns.all fun p => leafIds.contains p.2 || !contains p.1 kind

theorem nodeId_of_passesThrough (h : passesThrough kind = true) :
    nodeId kind = some 0 ∨ nodeId kind = some 300 ∨ nodeId kind = some 111 := by
  simp only [passesThrough, Bool.and_eq_true, List.all_eq_true, Bool.or_eq_true, beq_iff_eq,
    Bool.not_eq_true'] at h
  rcases nodeId_cases h.1 with ⟨hzero, -⟩ | ⟨p, hp, hin, hid⟩
  · exact Or.inl hzero
  · rcases h.2 p hp with (heq | heq) | hout
    · exact Or.inr (Or.inl (heq ▸ hid))
    · exact Or.inr (Or.inr (heq ▸ hid))
    · rw [ contains_iff_infix.mpr hin] at hout
      exact absurd hout (by simp)

theorem nodeId_of_isLeafKind (h : isLeafKind kind = true) :
    ∃ id ∈ leafIds, nodeId kind = some id := by
  simp only [isLeafKind, Bool.and_eq_true, List.any_eq_true, List.all_eq_true, Bool.or_eq_true,
    Bool.not_eq_true'] at h
  obtain ⟨⟨hplain, q, hq, hin⟩, hall⟩ := h
  rcases nodeId_cases hplain with ⟨-, hnone⟩ | ⟨p, hp, hin, hid⟩
  · exact absurd (Text.contains_iff_infix.mp hin) (hnone q hq)
  · rcases hall p hp with hleaf | hout
    · exact ⟨p.2, List.contains_iff_mem.mp hleaf, hid⟩
    · rw [ contains_iff_infix.mpr hin] at hout
      exact absurd hout (by simp)

theorem not_leaf_of_passesThrough (h : passesThrough kind = true) : isLeafKind kind = false := by
  by_contra hleaf
  obtain ⟨id, hmem, hid⟩ := nodeId_of_isLeafKind (by simpa using hleaf)
  rcases nodeId_of_passesThrough h with heq | heq | heq <;> rw [heq] at hid <;>
    obtain rfl := Option.some.inj hid <;> exact absurd hmem (by decide)

end CodeScope.Visitor
