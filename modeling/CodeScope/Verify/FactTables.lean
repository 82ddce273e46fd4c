import CodeScope.Store.EntityIds
import CodeScope.Library.SqlText

/-! # The canonical facts and the queries over them

The tables that verifiers and model builders read, with the rows of every project. A query can fail
when it is prepared or at any of its steps; a loop over `sqlite3_step` takes the rows before a
failing step for the whole result. -/

namespace CodeScope.Verify

open Text SqlText Store

/-! ## Tables -/

/-- A `relation` row: its id, and the edge. -/
structure Relation where
  id : Int
  project : ℕ
  sourceId : Int
  targetId : Int
  type : Int
deriving DecidableEq

/-- A `scope` row. -/
structure Scope where
  id : Int
  project : ℕ
  kind : Int
  name : Str
deriving DecidableEq

/-- A row of `capability` or of `contract`. -/
structure Declared where
  project : ℕ
  name : Str
deriving DecidableEq

structure ArchitectureEdge where
  project : ℕ
  callerModule : Str
  calleeModule : Str
deriving DecidableEq

/-- The tables with the rows of all projects; their ids are primary keys. -/
structure Facts where
  entity : EntityTable
  relation : List Relation
  scope : List Scope
  capability : List Declared
  contract : List Declared
  architectureEdge : List ArchitectureEdge
  relationIds : (relation.map Relation.id).Nodup
  scopeIds : (scope.map Scope.id).Nodup

def kRelationTypeCalls : Int := 1

namespace Facts

variable (db : Facts)

/-- `… FROM entity WHERE project_id = ?` -/
def entitiesOf (project : ℕ) : List EntityRow :=
  db.entity.rows.filter fun e => e.project = project

/-- `… FROM relation WHERE project_id = ?` -/
def relationsOf (project : ℕ) : List Relation :=
  db.relation.filter fun r => r.project = project

/-- `… FROM relation WHERE project_id = ? AND type = ?` for the Calls edges. -/
def callsOf (project : ℕ) : List Relation :=
  (db.relationsOf project).filter fun r => r.type = kRelationTypeCalls

end Facts

/-! ## Queries that fail -/

/-- Where a query fails: in its prepare, or in the step after that many rows. -/
inductive Failure where
  | prepare
  | step (rows : ℕ)
deriving DecidableEq, Repr

/-- The rows a caller collects: none at all when the prepare fails, those before the failing step
    when a step fails. -/
def collect {α : Type} (fault : Option Failure) (rows : List α) : Option (List α) :=
  match fault with
  | none => some rows
  | some .prepare => none
  | some (.step k) => some (rows.take k)

/-- A query whose prepared statement delivered no row although there are some. -/
def Silenced {α : Type} (fault : Option Failure) (rows : List α) : Prop :=
  fault = some (.step 0) ∧ rows ≠ []

instance {α : Type} [DecidableEq α] (fault : Option Failure) (rows : List α) :
    Decidable (Silenced fault rows) :=
  inferInstanceAs (Decidable (_ ∧ _))

/-- The count of a `SELECT COUNT(*)` whose caller starts from zero. -/
def countRows (fault : Option Failure) (count : ℕ) : ℕ :=
  (((collect fault [count]).getD []).head?).getD 0

section

variable {α : Type} {fault : Option Failure} {rows seen : List α}

@[simp] theorem collect_none : collect none rows = some rows := rfl

theorem collect_initial (h : collect fault rows = some seen) : seen <+: rows := by
  cases fault with
  | none => exact Option.some.inj h ▸ List.prefix_rfl
  | some f =>
      cases f with
      | prepare => exact absurd h (by simp [collect])
      | step k => exact Option.some.inj h ▸ List.take_prefix k rows

theorem mem_of_collect (h : collect fault rows = some seen) {a : α} (ha : a ∈ seen) : a ∈ rows :=
  (collect_initial h).subset ha

/-- The rows are all missing exactly when there are none, or the first step failed. -/
theorem collect_eq_nil_iff (h : collect fault rows = some seen) :
    seen = [] ↔ rows = [] ∨ Silenced fault rows := by
  cases fault with
  | none =>
      obtain rfl : rows = seen := Option.some.inj h
      simp [Silenced]
  | some f =>
      cases f with
      | prepare => exact absurd h (by simp [collect])
      | step k =>
          obtain rfl : rows.take k = seen := Option.some.inj h
          rw [List.take_eq_nil_iff]
          constructor
          · rintro (rfl | hnil)
            · by_cases hnil : rows = []
              · exact Or.inl hnil
              · exact Or.inr ⟨rfl, hnil⟩
            · exact Or.inl hnil
          · rintro (hnil | ⟨hk, _⟩)
            · exact Or.inr hnil
            · exact Or.inl (by simpa using hk)

theorem countRows_le (fault : Option Failure) (count : ℕ) : countRows fault count ≤ count := by
  cases fault with
  | none => exact le_rfl
  | some f =>
      cases f with
      | prepare => exact Nat.zero_le _
      | step k =>
          cases k with
          | zero => exact Nat.zero_le _
          | succ k => exact le_rfl

end

/-! ## The rule of capabilities -/

def kMinCapabilityPrefixLen : ℕ := 4

/-- `REPLACE(s, '_', '')` -/
def deUnderscored (s : Str) : Str := replaceChar '_' [] s

/-- `LOWER(a) LIKE LOWER(b) || '%'` -/
def likePrefix (a b : Str) : Bool := like none (lower b ++ ['%']) (lower a)

/-- One of two spellings starts with the other, the entity's being long enough. -/
def eitherPrefix (entityName subject : Str) : Bool :=
  decide (kMinCapabilityPrefixLen ≤ entityName.length) &&
    (likePrefix entityName (deUnderscored subject) || likePrefix (deUnderscored subject) entityName)

/-- The entity name with `\`, `%` and `_` escaped, in that order. -/
def literalPattern (name : Str) : Str :=
  replaceChar '_' ['\\', '_'] (replaceChar '%' ['\\', '%'] (replaceChar '\\' ['\\', '\\'] name))

/-- The name arms of the query of `implementingEntitiesFor`. -/
def namesCapability (name subject : Str) : Bool :=
  lower name = lower subject ||
    (decide (kMinCapabilityPrefixLen ≤ subject.length) &&
      decide (kMinCapabilityPrefixLen ≤ name.length) &&
      (likePrefix name subject ||
        like (some '\\') (lower (literalPattern name) ++ ['%']) (lower subject) ||
        eitherPrefix (deUnderscored name) subject ||
        -- the name without its language prefix
        (decide ('_' ∈ name) && eitherPrefix (deUnderscored (afterFirst '_' name)) subject)))

/-- `EXISTS (SELECT 1 FROM relation …) OR e.visibility = 1` -/
def hasEvidence (db : Facts) (project : ℕ) (e : EntityRow) : Bool :=
  ((db.callsOf project).any fun r => r.targetId = e.id) || decide (e.visibility = 1)

/-- The ids that the query of `implementingEntitiesFor` selects. -/
def implementing (db : Facts) (project : ℕ) (subject : Str) : List Int :=
  ((db.entitiesOf project).filter fun e =>
    namesCapability e.name subject && hasEvidence db project e).map EntityRow.id

/-- `implementingEntitiesFor`; nothing when `out_ok` is false. -/
def implementingEntitiesFor (db : Facts) (project : ℕ) (subject : Str)
    (order : List Int → List Int) (fault : Option Failure) : Option (List Int) :=
  collect fault (order (implementing db project subject))

example : namesCapability (str "engine_verify_claim") (str "VerifyClaimResult") = true := by
  decide +kernel

end CodeScope.Verify
