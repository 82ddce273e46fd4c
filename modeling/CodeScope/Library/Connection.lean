import Mathlib.Logic.Basic

/-! # A database connection with one transaction at a time

Outside a transaction every write is durable at once; inside one the writes go to a working copy
that COMMIT makes durable. A COMMIT that fails leaves the database as it was before the BEGIN. Each
operation reports whether it succeeded, and it is up to the caller to look. -/

namespace Connection

variable {δ : Type}

/-- The durable database, and the working copy of an open transaction. -/
structure Conn (δ : Type) where
  durable : δ
  txn : Option δ
deriving DecidableEq

namespace Conn

/-- A connection outside any transaction. -/
def idle (d : δ) : Conn δ := ⟨d, none⟩

/-- What the statements of the connection see. -/
def view (c : Conn δ) : δ := c.txn.getD c.durable

/-- A write that succeeds. -/
def write (c : Conn δ) (f : δ → δ) : Conn δ :=
  match c.txn with
  | none => ⟨f c.durable, none⟩
  | some w => ⟨c.durable, some (f w)⟩

/-- `BEGIN`; it also fails inside a transaction. -/
def begin (c : Conn δ) (fails : Bool) : Bool × Conn δ :=
  match c.txn with
  | none => if fails then (false, c) else (true, ⟨c.durable, some c.durable⟩)
  | some _ => (false, c)

/-- `COMMIT`; it also fails outside a transaction. -/
def commit (c : Conn δ) (fails : Bool) : Bool × Conn δ :=
  match c.txn with
  | none => (false, c)
  | some w => if fails then (false, idle c.durable) else (true, idle w)

def rollback (c : Conn δ) : Conn δ := idle c.durable

@[simp] theorem idle_durable (d : δ) : (idle d).durable = d := rfl

@[simp] theorem view_idle (d : δ) : (idle d).view = d := rfl

@[simp] theorem write_idle (d : δ) (f : δ → δ) : (idle d).write f = idle (f d) := rfl

@[simp] theorem write_open (d w : δ) (f : δ → δ) :
    (⟨d, some w⟩ : Conn δ).write f = ⟨d, some (f w)⟩ := rfl

@[simp] theorem begin_idle (d : δ) (fails : Bool) :
    (idle d).begin fails = if fails then (false, idle d) else (true, ⟨d, some d⟩) := rfl

@[simp] theorem commit_open (d w : δ) (fails : Bool) :
    (⟨d, some w⟩ : Conn δ).commit fails = if fails then (false, idle d) else (true, idle w) := rfl

theorem write_write (c : Conn δ) (f g : δ → δ) : (c.write f).write g = c.write (g ∘ f) := by
  obtain ⟨d, txn⟩ := c
  cases txn with
  | none => rfl
  | some w => rfl

theorem write_id (c : Conn δ) : c.write id = c := by
  obtain ⟨d, txn⟩ := c
  cases txn with
  | none => rfl
  | some w => rfl

theorem view_write (c : Conn δ) (f : δ → δ) : (c.write f).view = f c.view := by
  obtain ⟨d, txn⟩ := c
  cases txn with
  | none => rfl
  | some w => rfl

theorem view_closed (c : Conn δ) (h : ¬ c.txn.isSome = true) : c.view = c.durable := by
  obtain ⟨d, txn⟩ := c
  cases txn with
  | none => rfl
  | some w => exact absurd rfl h

theorem durable_write (c : Conn δ) (f : δ → δ) :
    (c.write f).durable = if c.txn.isSome then c.durable else f c.view := by
  obtain ⟨d, txn⟩ := c
  cases txn with
  | none => rfl
  | some w => rfl

@[simp] theorem txn_write (c : Conn δ) (f : δ → δ) : (c.write f).txn.isSome = c.txn.isSome := by
  obtain ⟨d, txn⟩ := c
  cases txn with
  | none => rfl
  | some w => rfl

theorem begin_closed (c : Conn δ) (h : c.txn.isSome = false) :
    (c.begin false).2 = ⟨c.durable, some c.view⟩ := by
  obtain ⟨d, txn⟩ := c
  cases txn with
  | none => rfl
  | some w => exact absurd h (by simp)

theorem commit_opened (c : Conn δ) (h : c.txn.isSome = true) :
    (c.commit false).2 = idle c.view := by
  obtain ⟨d, txn⟩ := c
  cases txn with
  | none => exact absurd h (by simp)
  | some w => rfl

theorem transaction_idle (d : δ) (f : δ → δ) (beginFails commitFails : Bool) :
    ((((idle d).begin beginFails).2.write f).commit commitFails).2 =
      idle (if beginFails || !commitFails then f d else d) := by
  cases beginFails with
  | true => rfl
  | false =>
      cases commitFails with
      | true => rfl
      | false => rfl

end Conn

end Connection
