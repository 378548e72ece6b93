import Infinisql.Ref.Versions
import Infinisql.Spec.Cell

/-!
# Records that name their predecessors

A row carries the subtransaction whose commit installed it. A replica that is
to put a new version in its place, or to take it out, asks for just that
number. So a record of a dispatch is right when it has the rowid of the row it
is about, and the number that the row has at its engine.

The other half of the file is what the statements need to come by that number.
-/

namespace Infinisql.Spec

open Infinisql.Ref

/-- The record has the row's rowid, and the predecessor recorded in it. -/
def NamesPredecessor (s : Tables) (uur : UuRecord) (r : DispatchRecord) :
    Prop :=
  r.rowid = uur.rowid ∧
    ∃ d, (cell (s.store uur.engineid uur.tableid) uur.rowid).row = some d ∧
      r.previoussubtransactionid = d.previoussubtransactionid

/-- Every record is that of a staged row, and names the row's predecessor. -/
structure TrueRecords (s : Tables) (t : Transaction) (msg : MessageDispatch) :
    Prop where
  staged : ∀ p ∈ msg.records, ∀ r ∈ p.2, ∃ x ∈ t.stagedRows,
    x.1.engineid = p.1 ∧ Transaction.dispatchRecord x.1 x.2 = some r
  names : ∀ x ∈ t.stagedRows, ∀ r,
    Transaction.dispatchRecord x.1 x.2 = some r → NamesPredecessor s x.1 r

/-- The transaction, as `commit` finds it: its rows in any order. -/
def Lists (s : Tables) (t : Transaction) : Prop :=
  ∀ uur srow, (uur, srow) ∈ t.stagedRows ↔
    s.stagedRows t.transactionid uur = some srow

/-- What `commit` dispatches is true. -/
def Dispatches (s : Versions) : VersionsOp → Prop
  | .commit x => ∀ t : Transaction, t.transactionid = x → Lists s.tables t →
      ∀ msg, t.makeMessageDispatch = some msg → TrueRecords s.tables t msg
  | _ => True

/-! ## The condition -/

/-- The predecessor of a row that the transaction holds the write lock on. -/
def heldPrevious (s : Tables) (subs : Subtransactions) (transactionid : Int)
    (uur : UuRecord) : Option Int :=
  ((cell (s.store uur.engineid uur.tableid) uur.rowid).row.filter
    (Table.writeLockedBy · (subs.id transactionid uur.engineid))).map
      (·.previoussubtransactionid)

/-- A row is staged to be inserted, changed or deleted. -/
def StagedChange (s : Tables) (transactionid : Int) (uur : UuRecord) : Prop :=
  ∃ srow ∈ s.stagedRows transactionid uur, srow.cmd ≠ .nocommand

/-- The row that the NEWROW is to replace, and the rowid it will get. -/
def replacement (s : Tables) (m : Sent) : Option (UuRecord × Int) :=
  match m.cmd, m.originalrowuur with
  | .newrow tableid _, some uur =>
      some (uur, (s.store m.engineid tableid).nextrowid + 1)
  | _, _ => none

/-- The rows of an UPDATE are locked and come with their predecessors; those
of a DELETE are locked and were staged before with their rowids and their
predecessors; the new row of a row that is replaced gets the rowid of the old
one, and has it when the transaction commits; and no row is rolled back by
itself that is staged to be changed. -/
def Carried (subs : Subtransactions) (s : Versions) : VersionsOp → Prop
  | .statement (.update x _ _ _ rows) => ∀ p ∈ rows,
      heldPrevious s.tables subs x p.1 = some p.2.previoussubtransactionid
  | .statement (.continueDelete x rows) => ∀ p ∈ rows,
      ∃ srow ∈ s.tables.stagedRows x p.1, srow.originalrowid = p.1.rowid ∧
        heldPrevious s.tables subs x p.1 = some srow.previoussubtransactionid
  | .statement (.deliver n) => ∀ m ∈ s.tables.sent[n]?,
      ∀ p ∈ replacement s.tables m, p.2 = p.1.rowid
  | .commit x => ∀ m ∈ s.tables.sent, m.transactionid = x →
      replacement s.tables m = none
  | .rollbackRow x uur => ¬ StagedChange s.tables x uur
  | _ => True

end Infinisql.Spec
