import CodeScope.Library.Text

/-! # What a query reads beside the graph

The rows of the entity table, and the integers in the texts that a client sends. -/

namespace CodeScope.Query

open Text

/-- The columns of `entity` that the queries read. -/
structure Entity where
  id : ℕ
  projectId : ℕ
  kind : Int
  name : Str
  qualifiedName : Str
  filePath : Str
  language : Str
deriving DecidableEq

/-- The table `entity`; the ids are its primary key. -/
structure EntityTable where
  rows : List Entity
  ids_nodup : (rows.map (·.id)).Nodup

theorem EntityTable.eq_of_id (E : EntityTable) {e e' : Entity} (he : e ∈ E.rows) (he' : e' ∈ E.rows)
    (h : e.id = e'.id) : e = e' := List.inj_on_of_nodup_map E.ids_nodup he he' h

/-! ## Integers in a text -/

/-- `isspace` of the C locale. -/
def isSpace (c : Char) : Bool := c ∈ [' ', '\t', '\n', '\x0b', '\x0c', '\r']

def natOf (digits : Str) : ℕ := digits.foldl (fun n c => 10 * n + (c.toNat - '0'.toNat)) 0

/-- The integer that a text begins with, behind blanks and with a sign. -/
def leadingInt (s : Str) : Option Int :=
  let unsigned (t : Str) : Option ℕ :=
    if t.takeWhile Char.isDigit = [] then none else some (natOf (t.takeWhile Char.isDigit))
  match s.dropWhile isSpace with
  | '-' :: t => (unsigned t).map fun n => -(n : Int)
  | '+' :: t => (unsigned t).map fun n => (n : Int)
  | t => (unsigned t).map fun n => (n : Int)

/-- `std::stoi`: `none` where it throws. -/
def stoi (s : Str) : Option Int :=
  (leadingInt s).filter fun i => -2 ^ 31 ≤ i && i < 2 ^ 31

/-- `std::atoi`: `strtol`, which saturates, and the conversion to `int`. -/
def atoi (s : Str) : Int :=
  match leadingInt s with
  | none => 0
  | some i => (max (-2 ^ 63) (min (2 ^ 63 - 1) i) + 2 ^ 31) % 2 ^ 32 - 2 ^ 31

end CodeScope.Query
