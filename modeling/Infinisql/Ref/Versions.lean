import Infinisql.Ref.Statements
import Infinisql.Ref.Dispatch

/-!
# Transactions from their statements to their ends

The statements of all transactions on the tables, and what comes after them:
`commit` makes the message for the replicas of the rows that are staged, and
then the engines are told, row by row, to commit. A transaction that has begun
to end executes no statement.

Two things about the searches matter here that did not before. A `selectrows`
has one work row, which it copies for each row it returns, and it never
assigns the `previoussubtransactionid` of it: what is there is handed in with
the call. And an AND sends back a ROLLBACKCMD for rows that only one of its
sides has found, while the transaction goes on.
-/

namespace Infinisql.Ref

/-- The subtransactions of all transactions. An engine numbers them as it
creates them, so no two transactions have one in common. -/
structure Subtransactions where
  id : Int → Int → Int
  injective : ∀ engineid, Function.Injective (id · engineid)

structure Versions where
  tables : Tables
  ended : Int → Bool

inductive VersionsOp
  | selectrows (transactionid engineid tableid : Int) (rowids : List Int)
      (locktype : Locktype) (pendingcmdid tacmdentrypoint workrow : Int)
  | statement (op : TablesOp)
  | rollbackRow (transactionid : Int) (uur : UuRecord)
  | commit (transactionid : Int)
  | rollback (transactionid : Int)
  | finish (transactionid engineid tableid rowid : Int) (cmd : Enginecmd)

/-- The transaction that executes the statement. A message that arrives is
nobody's. -/
def TablesOp.transactionid : TablesOp → Option Int
  | .selectrows x .. | .findStaged x _ | .continueSelect x _
  | .continueDelete x _ | .insert x .. | .update x .. => some x
  | .deliver _ | .call .. => none

/-- What `statement` stands for: all but the searches and the ends of rows. -/
def TablesOp.inStatement : TablesOp → Bool
  | .selectrows .. => false
  | .call _ _ (.deleterow ..) | .call _ _ (.replacedeleterow ..) => true
  | .call .. => false
  | _ => true

namespace Versions

def new : Versions where
  tables := .new
  ended _ := false

def setEnded (s : Versions) (transactionid : Int) : Versions :=
  { s with ended := Function.update s.ended transactionid true }

/-- `commitRollbackUnlock` at an engine. -/
def finishRow (s : Versions) (subs : Subtransactions) (transactionid : Int)
    (uur : UuRecord) (cmd : Enginecmd) : Option Versions :=
  ((s.tables.store uur.engineid uur.tableid).commitRollbackUnlock uur.rowid
    (subs.id transactionid uur.engineid) cmd).map fun t =>
      { s with tables := s.tables.setStore uur.engineid uur.tableid t }

def step (ld : LongDouble) (top : Topology) (schema : Int → List Field)
    (subs : Subtransactions) (s : Versions) : VersionsOp → Option Versions
  | .selectrows x e tableid rowids locktype pendingcmdid tacmdentrypoint
      workrow =>
      if s.ended x then none
      else
        ((s.tables.store e tableid).selectrows locktype (subs.id x e)
          pendingcmdid tacmdentrypoint rowids).map fun (returnRows, t) =>
            let rows := returnRows.map fun r =>
              { r with previoussubtransactionid := workrow }
            let found := Tables.results e tableid rows
            { s with tables := (s.tables.setStore e tableid t).find x found }
  | .statement op =>
      if op.inStatement ∧ op.transactionid.all (!s.ended ·) then
        (s.tables.step ld top schema subs.id op).map fun tables =>
          { s with tables := tables }
      else none
  | .rollbackRow x uur =>
      if s.ended x then none else s.finishRow subs x uur .rollbackCmd
  | .commit x | .rollback x => if s.ended x then none else some (s.setEnded x)
  | .finish x e tableid rowid cmd =>
      if s.ended x then s.finishRow subs x ⟨rowid, tableid, e⟩ cmd else none

end Versions

end Infinisql.Ref
