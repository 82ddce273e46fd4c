import Mathlib.Data.List.Infix
import CodeScope.Library.Suffixes

/-! # The pattern automaton of `ahocorasick.h`

Nodes live in an arena and are named by their position; node 0 is `root_`, the node made next gets
the first unused position. `addPattern` grows a trie, `build` walks it breadth first and sets each
node's `fail` and `out_link`, `match_` follows both over a text.

A loop of the source runs on a budget of steps. It answers `none` when the budget is used up, and
also where the source would follow a null pointer; that neither happens is proved and not assumed. -/

namespace CodeScope.Util

open Suffixes

/-- `ACAutomaton::Node`. A pattern's length counts the nodes on its path, so `output_len` stays in
    the range of its type as long as the nodes fit into memory. -/
structure ACNode where
  next : UInt8 → Option ℕ
  fail : Option ℕ
  out_link : Option ℕ
  output : ℤ
  output_len : ℕ

/-- `new Node()`. -/
def ACNode.fresh : ACNode :=
  { next := fun _ => none, fail := none, out_link := none, output := 0, output_len := 0 }

structure ACAutomaton where
  node : ℕ → ACNode
  size : ℕ

namespace ACAutomaton

/-- `&root_`. -/
abbrev root : ℕ := 0

/-- `ACAutomaton()`. -/
def empty : ACAutomaton := { node := fun _ => ACNode.fresh, size := 1 }

def setNode (ac : ACAutomaton) (n : ℕ) (v : ACNode) : ACAutomaton :=
  { ac with node := Function.update ac.node n v }

/-! ## Patterns -/

/-- `cur->next[idx] = new Node()`. -/
def grow (ac : ACAutomaton) (cur : ℕ) (idx : UInt8) : ACAutomaton :=
  { node := Function.update
      (Function.update ac.node cur
        { ac.node cur with next := Function.update (ac.node cur).next idx (some ac.size) })
      ac.size ACNode.fresh
    size := ac.size + 1 }

/-- One turn of the loop of `addPattern`: the child for a character, made when it is missing. -/
def descend (ac : ACAutomaton) (cur : ℕ) (idx : UInt8) : ACAutomaton × ℕ :=
  match (ac.node cur).next idx with
  | some child => (ac, child)
  | none => (ac.grow cur idx, ac.size)

/-- The loop of `addPattern`. -/
def descendAll (ac : ACAutomaton) (cur : ℕ) : List UInt8 → ACAutomaton × ℕ
  | [] => (ac, cur)
  | c :: rest => (ac.descend cur c).1.descendAll (ac.descend cur c).2 rest

def addPattern (ac : ACAutomaton) (pattern : List UInt8) (id : ℤ) : ACAutomaton :=
  if pattern.isEmpty then ac
  else
    let (grown, cur) := ac.descendAll root pattern
    grown.setNode cur { grown.node cur with output := id, output_len := pattern.length }

/-- The automaton after a sequence of `addPattern` calls. -/
def ofPatterns (pats : List (List UInt8 × ℤ)) : ACAutomaton :=
  pats.foldl (fun ac p => ac.addPattern p.1 p.2) empty

/-! ## Links -/

/-- The indices of `next`, in order. -/
def indices : List UInt8 := (List.range 256).map UInt8.ofNat

/-- `while (f && !f->next[i]) f = f->fail;`: the node the loop ends at, if any. -/
def climb (ac : ACAutomaton) (i : UInt8) : ℕ → Option ℕ → Option (Option ℕ)
  | 0, _ => none
  | _ + 1, none => some none
  | budget + 1, some f =>
    if ((ac.node f).next i).isNone then ac.climb i budget (ac.node f).fail else some (some f)

/-- `out_link` of a node whose `fail` is known. -/
def outLinkOf (ac : ACAutomaton) (fail_node : ℕ) : Option ℕ :=
  if fail_node ≠ root ∧ (ac.node fail_node).output ≠ 0 then some fail_node
  else (ac.node fail_node).out_link

def setLinks (ac : ACAutomaton) (child : ℕ) (fail : Option ℕ) (out_link : Option ℕ) : ACAutomaton :=
  ac.setNode child { ac.node child with fail := fail, out_link := out_link }

/-- The links of one child of `cur`. -/
def link (ac : ACAutomaton) (cur : ℕ) (i : UInt8) (child : ℕ) : Option ACAutomaton := do
  let f ← ac.climb i (ac.size + 1) (ac.node cur).fail
  let fail := match f with
    | some f => (ac.node f).next i
    | none => some root
  let fail_node ← fail
  return ac.setLinks child fail (ac.outLinkOf fail_node)

/-- The inner loop of `build`: the children of `cur` are linked and pushed. -/
def visit (cur : ℕ) : List UInt8 → ACAutomaton → List ℕ → Option (ACAutomaton × List ℕ)
  | [], ac, q => some (ac, q)
  | i :: rest, ac, q =>
    match (ac.node cur).next i with
    | none => visit cur rest ac q
    | some child => (ac.link cur i child).bind fun linked => visit cur rest linked (q ++ [child])

/-- The breadth-first loop of `build`. -/
def search : ℕ → ACAutomaton → List ℕ → Option ACAutomaton
  | 0, _, _ => none
  | _ + 1, ac, [] => some ac
  | budget + 1, ac, cur :: q =>
    (visit cur indices ac q).bind fun (linked, grown) => search budget linked grown

/-- The first loop of `build`: the children of the root. -/
def firstLevel (ac : ACAutomaton) : List UInt8 → ACAutomaton × List ℕ
  | [] => (ac, [])
  | i :: rest =>
    match (ac.node root).next i with
    | none => ac.firstLevel rest
    | some n =>
      let (linked, q) := (ac.setLinks n (some root) none).firstLevel rest
      (linked, n :: q)

def build (ac : ACAutomaton) : Option ACAutomaton :=
  search (ac.size + 1) (ac.firstLevel indices).1 (ac.firstLevel indices).2

/-! ## The scan -/

/-- `while (cur != &root_ && !cur->next[idx]) cur = cur->fail;` -/
def follow (ac : ACAutomaton) (idx : UInt8) : ℕ → ℕ → Option ℕ
  | 0, _ => none
  | budget + 1, cur =>
    if cur ≠ root ∧ ((ac.node cur).next idx).isNone then
      (ac.node cur).fail.bind (ac.follow idx budget)
    else some cur

/-- The node after one more character of the text. -/
def advance (ac : ACAutomaton) (cur : ℕ) (idx : UInt8) : Option ℕ :=
  (ac.follow idx (ac.size + 1) cur).map fun cur => ((ac.node cur).next idx).getD cur

/-- `best_id` and `best_len`. -/
structure Best where
  id : ℤ
  len : ℕ
deriving DecidableEq

/-- One turn of the `out_link` loop of `match`. -/
def better (ac : ACAutomaton) (best : Best) (o : ℕ) : Best :=
  if (ac.node o).output ≠ 0 ∧ best.len < (ac.node o).output_len then
    { id := (ac.node o).output, len := (ac.node o).output_len }
  else best

/-- The `out_link` loop of `match`. -/
def collect (ac : ACAutomaton) : ℕ → Option ℕ → Best → Option Best
  | 0, _, _ => none
  | _ + 1, none, best => some best
  | budget + 1, some o, best => ac.collect budget (ac.node o).out_link (ac.better best o)

/-- The outer loop of `match`. -/
def scan (ac : ACAutomaton) : List UInt8 → ℕ → Best → Option Best
  | [], _, best => some best
  | c :: rest, cur, best =>
    (ac.advance cur c).bind fun cur =>
      (ac.collect (ac.size + 1) (some cur) best).bind (ac.scan rest cur)

/-- `match` on the bytes of a C string, which end at the first NUL. -/
def match_ (ac : ACAutomaton) (text : List UInt8) : Option ℤ :=
  (ac.scan (text.takeWhile (· ≠ 0)) root { id := 0, len := 0 }).map Best.id

end ACAutomaton

end CodeScope.Util
