import Infinisql.Ref.LockQueue

/-!
# What the waiters are to be told

Each entry of the queue whose subtransaction is there is told once that there is
no lock for it, in the order of the queue, and no other is told anything. The
queue is empty afterwards.
-/

namespace Infinisql.Queues

open Infinisql.Ref (LockQueueRowEntry Table)

/-- `PENDINGTONOLOCK` for the row, to the transaction that asked, under the
command and the entry point with which it asked. -/
def released (engine : Engine) (rowid : Int) (entry : LockQueueRowEntry)
    (s : SubTransaction) : Sent where
  destAddr := s.taAddr
  msg := {
    topic := .transaction
    payloadtype := .subtransaction
    transactionid := s.transactionid
    subtransactionid := s.subtransactionid
    engineinstance := engine.partitionid
    tacmdentrypoint := entry.tacmdentrypoint
    pendingcmdid := entry.pendingcmdid
    returnRows := [{ rowid := rowid, locktype := .pendingtonolock }] }

/-- The replies that are owed. -/
def owed (engine : Engine) (rowid : Int) (queue : List LockQueueRowEntry) :
    List Sent :=
  queue.filterMap fun entry =>
    (engine.subTransactions entry.subtransactionid).map
      (released engine rowid entry)

/-- The queue is drained, and those who wait are told. -/
def AnswersWaiters (engine : Engine) (t : Table) (rowid : Int) : Prop :=
  ∃ t' sent, drainRowLockQueue engine t rowid = some (t', sent) ∧
    t'.lockQueue rowid = [] ∧ sent = owed engine rowid (t.lockQueue rowid)

/-- Somebody waits. -/
def HasWaiter (engine : Engine) (t : Table) (rowid : Int) : Prop :=
  ∃ entry ∈ t.lockQueue rowid,
    (engine.subTransactions entry.subtransactionid).isSome

end Infinisql.Queues
