import Infinisql.Lib.Run
import Infinisql.Ref.Row
import Infinisql.Ref.Table

/-!
# A subtransaction at an engine

An engine holds a partition of every table: the row store and, for each
field, the field's index. The transaction agent sends it messages, and the
engine's `SubTransaction` object of that transaction carries them out. This
file is the half of `processTransactionMessage` that ends what was staged,
`PAYLOADCOMMITROLLBACK`: a list of items, each a row to be handed to
`commitRollbackUnlock` or an index entry to be settled, added, removed or
repointed.

The functions that would wake the requests in a lock queue return at once in
this version of the source. The two that drain a queue do something. A
drained index queue is just empty afterwards. A drained row queue answers
each waiter through the first element of an empty vector, so with a waiter
whose subtransaction is still there it does not return.
-/

namespace Infinisql.Ref

open Infinisql.Lib

/-- `class Table` at an engine: its rows and the indexes of its fields. -/
structure Partition where
  store : Table
  index : Nat → Index

/-- An engine's schema and the subtransactions it has open. -/
structure Engine where
  tables : Int → Option Partition
  subTransactions : Finset Int
  nextsubtransactionid : Int

/-- `rowOrField_s`. -/
structure RowOrField where
  isrow : Bool := false
  tableid : Int := 0
  rowid : Int := 0
  fieldid : Nat := 0
  engineid : Int := 0
  deleteindexentry : Bool := false
  isnotaddunique : Bool := false
  isreplace : Bool := false
  newrowid : Int := 0
  newengineid : Int := 0
  fieldVal : FieldValue := {}
  deriving DecidableEq

/-! ## Lock queues -/

/-- `drainRowLockQueue`. -/
def Table.drainRowLockQueue (t : Table) (subTransactions : Finset Int)
    (rowid : Int) : Option Table :=
  if (t.lockQueue rowid).any (·.subtransactionid ∈ subTransactions) then none
  else
    some { t with lockQueue := Function.update t.lockQueue rowid [] }

/-- The queue that goes with a key. -/
def Index.queueMap : Key → LockQueueMap
  | .integer _ => .intLockQueue
  | .uinteger _ => .uintLockQueue
  | .boolean _ => .boolLockQueue
  | .floating _ => .floatLockQueue
  | .character _ => .charLockQueue
  | .str _ => .stringLockQueue

/-- `drainIndexLockQueue`. -/
def Index.drainIndexLockQueue (i : Index) (val : FieldValue) :
    Option Index :=
  match val.key i.fieldtype with
  | none => some i
  | some key =>
      match i.lockQueue (queueMap key) with
      | none => none
      | some queue =>
          let queue' := Function.update queue key []
          let q := queueMap key
          some { i with
            lockQueue := Function.update i.lockQueue q (some queue') }

namespace SubTransaction

/-! ## Index items -/

/-- An item for a unique entry that was staged beforehand. -/
def applyStaged (s : Int) (cmd : Enginecmd) (rof : RowOrField) (i : Index) :
    Option Index :=
  let ended :=
    if rof.fieldVal.isnull then
      some (i.insertNullEntry rof.rowid rof.engineid)
    else
      match rof.fieldVal.key i.fieldtype with
      | none => some i
      | some key => i.commitRollback key s cmd
  match ended with
  | none => none
  | some i' =>
      if cmd = .commitCmd then i'.drainIndexLockQueue rof.fieldVal
      else some i'

/-- An item that repoints an entry to the row's new address. The null entry
is repointed to the new rowid at the item's `engineid`. -/
def applyReplace (rof : RowOrField) (i : Index) : Option Index :=
  if rof.fieldVal.isnull then
    some (i.replaceNull rof.rowid rof.engineid rof.newrowid rof.engineid)
  else
    match rof.fieldVal.key i.fieldtype with
    | none => some i
    | some key =>
        if i.isunique then i.replaceUnique rof.newrowid rof.newengineid key
        else
          i.replaceNonunique rof.rowid rof.engineid rof.newrowid
            rof.newengineid key

/-- An item that adds or removes an entry, null or not. -/
def applyEntry (rof : RowOrField) (i : Index) : Option Index :=
  if rof.fieldVal.isnull then
    if rof.deleteindexentry then
      some (i.deleteNullEntry rof.rowid rof.engineid)
    else some (i.insertNullEntry rof.rowid rof.engineid)
  else
    match rof.fieldVal.key i.fieldtype with
    | none => some i
    | some key =>
        if i.isunique then i.deleteUniqueEntry key
        else if rof.deleteindexentry then
          i.deleteNonuniqueEntry key rof.rowid rof.engineid
        else i.insertNonuniqueEntry key rof.rowid rof.engineid

def applyIndex (s : Int) (cmd : Enginecmd) (rof : RowOrField) (i : Index) :
    Option Index :=
  if !rof.isnotaddunique then applyStaged s cmd rof i
  else if rof.isreplace then applyReplace rof i
  else applyEntry rof i

/-! ## Items -/

/-- A row item, and what its lock queue comes to. -/
def applyRow (s : Int) (cmd : Enginecmd) (subTransactions : Finset Int)
    (rowid : Int) (t : Table) : Option Table :=
  match t.commitRollbackUnlock rowid s cmd with
  | none => none
  | some t' =>
      if (t'.rows rowid).isSome && cmd != .revertCmd then some t'
      else t'.drainRowLockQueue subTransactions rowid

/-- One iteration of the loop over the items. An unknown table aborts. -/
def applyRof (s : Int) (cmd : Enginecmd) (e : Engine) (rof : RowOrField) :
    Option Engine :=
  match e.tables rof.tableid with
  | none => none
  | some p =>
      let p' :=
        if rof.isrow then
          (applyRow s cmd e.subTransactions rof.rowid p.store).map fun t =>
            { p with store := t }
        else
          (applyIndex s cmd rof (p.index rof.fieldid)).map fun i =>
            { p with index := Function.update p.index rof.fieldid i }
      p'.map fun p' =>
        { e with tables := Function.update e.tables rof.tableid (some p') }

/-- `processTransactionMessage`, case `PAYLOADCOMMITROLLBACK`. -/
def processCommitRollback (s : Int) (cmd : Enginecmd) (e : Engine)
    (rofs : List RowOrField) : Option Engine :=
  run (applyRof s cmd) e rofs

end SubTransaction

end Infinisql.Ref
