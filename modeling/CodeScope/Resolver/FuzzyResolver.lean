import CodeScope.Library.Ranking
import CodeScope.Library.SortedRange
import CodeScope.Resolver.LikeMatch

/-! # The fuzzy resolver

The names of a project are loaded once, with an index by folded name, one sorted by folded name and
one sorted by its reverse. A prefix or a suffix without wildcards is answered by a range of a sorted
index, one with wildcards by a scan; both are compared with the scan that `LIKE` prescribes. -/

namespace CodeScope.Resolver

open Text (Str str lower)
open SqlText

structure EntityName where
  id : ℕ
  raw : Str
deriving DecidableEq, Repr

def foldName (name : Str) : Str := name.map likeFold

/-- The loaded names with their indexes. `std::sort` leaves entries with equal names in no fixed
    order, so a sorted index is any sorted arrangement of its entries. -/
structure FuzzyResolver where
  entities : List EntityName
  prefixSorted : List (Str × ℕ)
  prefix_perm : prefixSorted.Perm (entities.map fun e => (foldName e.raw, e.id))
  prefix_ordered : prefixSorted.Pairwise fun a b => a.1 ≤ b.1
  suffixSorted : List (Str × ℕ)
  suffix_perm : suffixSorted.Perm (entities.map fun e => ((foldName e.raw).reverse, e.id))
  suffix_ordered : suffixSorted.Pairwise fun a b => a.1 ≤ b.1

/-- The rows of `SELECT id, name`: a name ends at its first NUL, an empty one is left out. -/
def loadNames (rows : List (ℕ × Str)) : List EntityName :=
  (rows.map fun row => ⟨row.1, row.2.takeWhile (· ≠ '\x00')⟩).filter fun e => e.raw ≠ []

/-- The loader, with a sort that keeps the order of equal names. -/
def loadEntities (rows : List (ℕ × Str)) : FuzzyResolver where
  entities := loadNames rows
  prefixSorted := Ranking.sorted Prod.fst ((loadNames rows).map fun e => (foldName e.raw, e.id))
  prefix_perm := Ranking.sorted_perm _ _
  prefix_ordered := Ranking.sorted_pairwise _ _
  suffixSorted :=
    Ranking.sorted Prod.fst ((loadNames rows).map fun e => ((foldName e.raw).reverse, e.id))
  suffix_perm := Ranking.sorted_perm _ _
  suffix_ordered := Ranking.sorted_pairwise _ _

namespace FuzzyResolver

def foldedIndex (r : FuzzyResolver) (folded : Str) : List ℕ :=
  (r.entities.filter fun e => foldName e.raw = folded).map EntityName.id

def resolveCaseInsensitive (r : FuzzyResolver) (name : Str) (limit : ℕ) : List ℕ :=
  if name = [] then [] else (r.foldedIndex (foldName name)).take limit

/-- The wildcard path: push, then stop at the limit. -/
def scan (pattern : Str) (limit : ℕ) : List EntityName → List ℕ → List ℕ
  | [], out => out
  | e :: rest, out =>
    if sqliteLikeMatch pattern e.raw then
      if limit ≤ (out ++ [e.id]).length then out ++ [e.id]
      else scan pattern limit rest (out ++ [e.id])
    else scan pattern limit rest out

/-- `lower_bound` on a sorted index, then every entry that begins with the folded text; the ids are
    sorted before they are cut off. -/
def collect (index : List (Str × ℕ)) (folded : Str) (limit : ℕ) : List ℕ :=
  let out := (SortedRange.range Prod.fst folded folded.isPrefixOf index).map Prod.snd
  (out.mergeSort (· ≤ ·)).take limit

/-- The query has a wildcard of `LIKE` in it. -/
def hasWildcard (text : Str) : Bool := '%' ∈ text || '_' ∈ text

def resolvePrefix (r : FuzzyResolver) (text : Str) (limit : ℕ) : List ℕ :=
  if text.length < 3 then []
  else if hasWildcard text then scan (text ++ ['%']) limit r.entities []
  else collect r.prefixSorted (foldName text) limit

def resolveSuffix (r : FuzzyResolver) (text : Str) (limit : ℕ) : List ℕ :=
  if text.length < 3 then []
  else if hasWildcard text then scan ('%' :: text) limit r.entities []
  else collect r.suffixSorted (foldName text).reverse limit

/-- Exact up to case, then as a prefix, then as a suffix; the first strategy with an answer. -/
def resolve (r : FuzzyResolver) (calleeName : Str) (limit : ℕ) : List ℕ :=
  if calleeName = [] ∨ r.entities = [] then []
  else
    match r.resolveCaseInsensitive calleeName limit with
    | [] =>
      match r.resolvePrefix calleeName limit with
      | [] => r.resolveSuffix calleeName limit
      | out => out
    | out => out

/-- `SELECT id FROM entity WHERE name LIKE pattern LIMIT limit`, in the order of the ids. -/
def likeScan (r : FuzzyResolver) (pattern : Str) (limit : ℕ) : List ℕ :=
  ((r.entities.filter fun e => like none pattern e.raw).map EntityName.id).take limit

/-! ## The wildcard path -/

theorem scan_eq {pattern : Str} {limit : ℕ} {entities : List EntityName} {out : List ℕ}
    (h : out.length < limit) :
    scan pattern limit entities out =
      (out ++ (entities.filter fun e => like none pattern e.raw).map EntityName.id).take limit := by
  induction entities generalizing out with
  | nil => simp [scan, List.take_of_length_le h.le]
  | cons e rest ih =>
      rw [scan, sqliteLikeMatch_eq_like]
      by_cases hmatch : like none pattern e.raw = true
      · rw [if_pos hmatch, List.filter_cons_of_pos (by simpa using hmatch), List.map_cons,
          List.append_cons _ _ (List.map _ _)]
        split_ifs with hfull
        · rw [List.take_append_of_le_length hfull, List.take_of_length_le]
          simp only [List.length_append, List.length_singleton]
          omega
        · exact ih (not_le.mp hfull)
      · rw [if_neg hmatch, List.filter_cons_of_neg (by simpa using hmatch), ih h]

/-! ## The sorted indexes -/

/-- The answer from a sorted index is the scan in the order of the ids. -/
theorem collect_eq (key : Str → Str) {entities : List EntityName} {index : List (Str × ℕ)}
    {folded pattern : Str} (hperm : index.Perm (entities.map fun e => (key e.raw, e.id)))
    (hordered : index.Pairwise fun a b => a.1 ≤ b.1)
    (hlike : ∀ e ∈ entities, folded.isPrefixOf (key e.raw) = like none pattern e.raw)
    (hids : (entities.map EntityName.id).Pairwise (· < ·)) (limit : ℕ) :
    collect index folded limit =
      ((entities.filter fun e => like none pattern e.raw).map EntityName.id).take limit := by
  have hrange : ((SortedRange.range Prod.fst folded folded.isPrefixOf index).map Prod.snd).Perm
      ((entities.filter fun e => like none pattern e.raw).map EntityName.id) := by
    rw [SortedRange.range_eq_filter (SortedRange.convex_isPrefixOf folded) hordered,
      ← List.filter_congr hlike]
    refine ((hperm.filter _).map _).trans (List.Perm.of_eq ?_)
    rw [List.filter_map, List.map_map]
    rfl
  have hsorted : ((entities.filter fun e => like none pattern e.raw).map EntityName.id).Pairwise
      (· ≤ ·) :=
    (hids.sublist (List.filter_sublist.map EntityName.id)).imp le_of_lt
  have hmerge := Ranking.sorted_pairwise id
    ((SortedRange.range Prod.fst folded folded.isPrefixOf index).map Prod.snd)
  have heq := ((Ranking.sorted_perm id _).trans hrange).eq_of_pairwise
    (fun _ _ _ _ hab hba => le_antisymm hab hba) hmerge hsorted
  exact congrArg (List.take limit) heq

theorem foldName_eq (name : Str) : foldName name = lower name := by
  unfold foldName lower
  exact List.map_congr_left fun c _ => likeFold_eq c

theorem map_ofChar {text : Str} (h : hasWildcard text = false) :
    text.map LikeToken.ofChar = text.map .lit := by
  simp only [hasWildcard, Bool.or_eq_false_iff, decide_eq_false_iff_not] at h
  refine List.map_congr_left fun c hc => ?_
  have hany : c ≠ '%' := fun heq => h.1 (heq ▸ hc)
  have hone : c ≠ '_' := fun heq => h.2 (heq ▸ hc)
  rw [LikeToken.ofChar, if_neg hany, if_neg hone]

theorem like_prefix {text : Str} (h : hasWildcard text = false) (raw : Str) :
    (foldName text).isPrefixOf (foldName raw) = like none (text ++ ['%']) raw := by
  rw [Bool.eq_iff_iff, List.isPrefixOf_iff_prefix, like, likeTokens_unescaped, List.map_append,
    map_ofChar h, foldName_eq, foldName_eq]
  exact (matchTokens_lit_any text raw).symm

theorem like_suffix {text : Str} (h : hasWildcard text = false) (raw : Str) :
    (foldName text).reverse.isPrefixOf (foldName raw).reverse = like none ('%' :: text) raw := by
  rw [Bool.eq_iff_iff, List.isPrefixOf_iff_prefix, List.reverse_prefix, like, likeTokens_unescaped,
    List.map_cons, map_ofChar h, foldName_eq, foldName_eq]
  exact (matchTokens_any_lit text raw).symm

end FuzzyResolver

end CodeScope.Resolver
