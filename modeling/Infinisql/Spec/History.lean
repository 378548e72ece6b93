import Infinisql.Spec.Cell

/-!
# What was committed, and what is being written

A dirty read is a statement about the past: which content of a row was last
committed, and whose uncommitted writes the row carries. The store does not
keep either in one place, so a run is tracked with a history per rowid, in
the terms of the callers only. A write counts when the caller held the write
lock (or inserted the row), a commit by the holder makes the last write the
committed content, a rollback forgets the writes.

`Tracked.step` runs the store and the histories side by side. The store's
step does not look at the history.
-/

namespace Infinisql.Spec

open Infinisql.Ref

/-- The history of a rowid. `writes` are the uncommitted writes, the last one
first, `none` standing for a delete; `writer` made them. -/
structure History where
  committed : Option Bytes := none
  writer : Int := 0
  writes : List (Option Bytes) := []

namespace History

/-- The caller of an end command or a staging call holds the write lock. -/
def heldBy (c : Cell) (s : Int) : Bool :=
  match c.row with
  | none => false
  | some d => Table.writeLockedBy d s

def write (h : History) (s : Int) (w : Option Bytes) : History :=
  { h with writer := s, writes := w :: h.writes }

/-- The history after a call that finds the row as `c`. -/
def note (c : Cell) (h : History) : CellOp → History
  | .newrow s row => { h with writer := s, writes := [some row] }
  | .updaterow s row => if heldBy c s then h.write s (some row) else h
  | .deleterow s => if heldBy c s then h.write s none else h
  | .replacedeleterow s _ => if heldBy c s then h.write s none else h
  | .finish s .commitCmd =>
      if heldBy c s then
        { h with committed := h.writes.head?.getD h.committed, writes := [] }
      else h
  | .finish s .rollbackCmd =>
      if heldBy c s then { h with writes := [] } else h
  | _ => h

/-- `row` is what was last committed, or an uncommitted write of `s`. -/
def Clean (h : History) (s : Int) (row : Bytes) : Prop :=
  h.committed = some row ∨ h.writer = s ∧ some row ∈ h.writes

end History

/-- A store with the history of each rowid. -/
structure Tracked where
  table : Table
  history : Int → History

namespace Tracked

def new (idarg nextrowid : Int) : Tracked where
  table := .new idarg nextrowid
  history := fun _ => {}

/-- A call notes at most one write per rowid: only `selectrows` names a rowid
twice, and it writes nothing. -/
def step (x : Tracked) (op : TableOp) : Option Tracked :=
  (x.table.step op).map fun t' =>
    ⟨t', fun r => (cellOps r op).foldl (History.note (cell x.table r))
      (x.history r)⟩

/-- The rows a call returns under a lock type that carries content are clean
reads for the caller. -/
def CleanReads (x : Tracked) (op : TableOp) : Prop :=
  ∀ hits t', x.table.exec op = some (.rows hits, t') → ∀ e ∈ hits,
    e.locktype ∈ [Locktype.noLock, .readLock, .writeLock] →
      (x.history e.rowid).Clean op.sub e.row

/-- A `NOLOCK` select names no row that another subtransaction is inserting. -/
def SkipsInserts (x : Tracked) (op : TableOp) : Prop :=
  ∀ rs s pc tc, op = .selectrows rs .noLock s pc tc → ∀ r ∈ rs, ∀ a,
    x.table.rows r = some a →
    getinsertflag (x.table.heap a).flags = true →
    (x.table.heap a).writelockHolder = s

/-- A `newrow` gets a rowid nothing was ever committed under, as
`getnextrowid` hands it out. -/
def FreshRowid (x : Tracked) (op : TableOp) : Prop :=
  ∀ r s row, op = .newrow r s row → (x.history r).committed = none

end Tracked

/-- The calls of a run that ends its transactions by commit or rollback. -/
def CommitOrRollback (op : TableOp) : Prop :=
  ∀ r s cmd, op = .commitRollbackUnlock r s cmd →
    cmd = .commitCmd ∨ cmd = .rollbackCmd

end Infinisql.Spec
