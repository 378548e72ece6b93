import Infinisql.Ref.Statements

/-!
# Statements without WHERE

`branchtotype` puts all rows that the transaction has staged into the search
results, and calls `sqlSelectAll`. That asks every partition for the index
entries of field 0, `continueSqlPredicate` asks every engine it has heard of
for the rows, and every row that comes back goes into the search results, over
what was there. Then the statement goes on with them.

The entries come in any order of the partitions, the rows in any order of the
engines. The statement starts when no command is pending, and nothing else
happens to the table meanwhile.
-/

namespace Infinisql.Ref

abbrev SearchResults := UuRecord → Option ReturnRow

/-- The entry points a statement goes on at. -/
inductive Continuation
  | continueSelect
  | continueUpdate
  | continueDelete
  deriving DecidableEq, Repr

/-- The statements that search. A SELECT may say NOLOCK or FOR UPDATE. -/
inductive SearchCmd
  | select
  | selectNolock
  | selectForUpdate
  | update
  | delete
  deriving DecidableEq, Repr

namespace SearchCmd

/-- The lock type that `sqlSelectAll` is called with. -/
def locktype : SearchCmd → Locktype
  | select => .readLock
  | selectNolock => .noLock
  | selectForUpdate | update | delete => .writeLock

/-- Where `continueSqlPredicate` goes on with the rows: the `pendingcmd`. -/
def continuation : SearchCmd → Continuation
  | select | selectNolock | selectForUpdate => .continueSelect
  | update => .continueUpdate
  | delete => .continueDelete

end SearchCmd

/-- How a search ends. -/
inductive Searched
  | aborted (status : Apistatus)
  | continued (next : Continuation) (searchResults : SearchResults)

/-- A transaction about to search a table: the table at every engine, what
`getall` returns of its field 0 at every partition, rowid and engine, the
transaction's subtransactions and what it has staged. -/
structure WholeTable where
  tableid : Int
  numpartitions : Nat
  store : Int → Table
  getall : Nat → List (Int × Int)
  subtransactionids : Int → Int
  stagedRows : UuRecord → Option StagedRow

namespace WholeTable

/-- The staged rows, of whatever table. -/
def branchtotype (w : WholeTable) : SearchResults := fun uur =>
  (w.stagedRows uur).map stagedRow2ReturnRow

/-- Entry point 2 of `continueSqlPredicate`, for one row. -/
def addReturnRow (w : WholeTable) (engineid : Int) (results : SearchResults)
    (r : ReturnRow) : Except Apistatus SearchResults :=
  match r.locktype with
  | .noLock | .readLock | .writeLock =>
      .ok (Function.update results ⟨r.rowid, w.tableid, engineid⟩ (some r))
  | .pendingLock => .error .lock
  | _ => .ok results

/-- `payloads[engineid]`. -/
def payload (hits : List (Int × Int)) (engineid : Int) : List Int :=
  (hits.filter (·.2 = engineid)).map Prod.fst

/-- The engines answer one after the other. The first lock that is pending
aborts the query, and later answers are dropped. -/
def continueSqlPredicate (w : WholeTable) (locktype : Locktype)
    (pendingcmdid : Int) (hits : List (Int × Int)) :
    List Int → SearchResults → Option (Except Apistatus SearchResults)
  | [], results => some (.ok results)
  | engineid :: engines, results =>
      match (w.store engineid).selectrows locktype
          (w.subtransactionids engineid) pendingcmdid 2
          (payload hits engineid) with
      | none => none
      | some (returnRows, _) =>
          match returnRows.foldlM (w.addReturnRow engineid) results with
          | .error status => some (.error status)
          | .ok results =>
              w.continueSqlPredicate locktype pendingcmdid hits engines results

/-- The search, where the partitions and the engines answer in these orders.
Without any entry the statement goes on at `continueSelect`, whatever it is:
`pendingcmd` is asked for after it was cleared. -/
def sqlSelectAll (w : WholeTable) (cmd : SearchCmd) (pendingcmdid : Int)
    (partitions : List Nat) (engines : List Int) : Option Searched :=
  let hits := partitions.flatMap w.getall
  if hits = [] then some (.continued .continueSelect w.branchtotype)
  else
    (w.continueSqlPredicate cmd.locktype pendingcmdid hits engines
      w.branchtotype).map fun
        | .error status => .aborted status
        | .ok results => .continued cmd.continuation results

end WholeTable

end Infinisql.Ref
