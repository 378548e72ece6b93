import Infinisql.Ref.SerializedMessage
import Infinisql.Ref.SubTransaction
import Infinisql.Ref.Dispatch

/-!
# Draining a row's lock queue

`Ref.SubTransaction` says what draining does to the queue. Here is what it
sends. A row that is gone has no lock to wait for, so whoever waits is to be
told: for every entry of the queue whose subtransaction the engine still has, a
message is made and handed to that subtransaction's `replyTransaction`, with
a second message in the place of the one that is usually answered.

`returnRows[0]` is the element at an index, and without such an element there is
no result.

Of a message these are the members that are written or read on the way. Nothing
here depends on their widths.
-/

namespace Infinisql.Queues

open Infinisql.Ref (AddressStruct Bytes LockQueueRowEntry Table)
open Infinisql.Ref.Wire (Payloadtype)

/-- `locktype_e`. -/
inductive Locktype
  | notfoundlock
  | nolock
  | readlock
  | writelock
  | pendinglock
  | indexlock
  | indexpendinglock
  | pendingtowritelock
  | pendingtoreadlock
  | pendingtonolock
  | pendingtoindexlock
  | pendingtoindexnolock
  deriving DecidableEq

/-- `topic_e`, as far as it goes here. -/
inductive Topic
  | none
  | transaction
  deriving DecidableEq

/-- `returnRow_s`. -/
structure ReturnRow where
  rowid : Int := 0
  previoussubtransactionid : Int := 0
  locktype : Locktype := .nolock
  row : Bytes := []
  deriving DecidableEq

/-- `message_s` and `transaction_s`, and the rows that are returned. -/
structure MessageSubtransactionCmd where
  topic : Topic := .none
  payloadtype : Payloadtype := .none
  transactionid : Int := 0
  subtransactionid : Int := 0
  engineinstance : Int := 0
  tacmdentrypoint : Int := 0
  pendingcmdid : Int := 0
  returnRows : List ReturnRow := []
  deriving DecidableEq

/-- `class SubTransaction`, as far as replies go. -/
structure SubTransaction where
  taAddr : AddressStruct
  transactionid : Int
  subtransactionid : Int
  deriving DecidableEq

/-- `class Engine`, likewise. -/
structure Engine where
  partitionid : Int
  subTransactions : Int → Option SubTransaction

/-- A message and where it goes. -/
structure Sent where
  destAddr : AddressStruct
  msg : MessageSubtransactionCmd
  deriving DecidableEq

/-- The second `replyTransaction`. -/
def replyTransaction (engine : Engine) (s : SubTransaction)
    (sndRef rcvRef : MessageSubtransactionCmd) : Sent where
  destAddr := s.taAddr
  msg := { sndRef with
    topic := .transaction
    payloadtype := rcvRef.payloadtype
    transactionid := rcvRef.transactionid
    subtransactionid := s.subtransactionid
    engineinstance := engine.partitionid
    tacmdentrypoint := rcvRef.tacmdentrypoint
    pendingcmdid := rcvRef.pendingcmdid }

/-- An assignment to a member of `returnRows[0]`. -/
def setFirst (rows : List ReturnRow) (f : ReturnRow → ReturnRow) :
    Option (List ReturnRow) :=
  match rows with
  | [] => none
  | row :: rows => some (f row :: rows)

/-- What is sent for an entry whose subtransaction is there. -/
def answer (engine : Engine) (rowid : Int) (entry : LockQueueRowEntry)
    (s : SubTransaction) : Option Sent := do
  let cmd : MessageSubtransactionCmd := {}
  let rows ← setFirst cmd.returnRows fun row =>
    { row with locktype := .pendingtonolock }
  let rows ← setFirst rows fun row => { row with rowid := rowid }
  let rcv : MessageSubtransactionCmd := {
    transactionid := s.transactionid
    subtransactionid := entry.subtransactionid
    engineinstance := engine.partitionid
    tacmdentrypoint := entry.tacmdentrypoint
    pendingcmdid := entry.pendingcmdid
    payloadtype := .subtransaction }
  return replyTransaction engine s { cmd with returnRows := rows } rcv

/-- The loop over the queue. -/
def drain (engine : Engine) (rowid : Int) :
    List LockQueueRowEntry → Option (List Sent)
  | [] => some []
  | entry :: queue =>
      match engine.subTransactions entry.subtransactionid with
      | none => drain engine rowid queue
      | some s =>
          match answer engine rowid entry s with
          | none => none
          | some sent => (drain engine rowid queue).map (sent :: ·)

/-- `drainRowLockQueue`: every entry is popped. -/
def drainRowLockQueue (engine : Engine) (t : Table) (rowid : Int) :
    Option (Table × List Sent) :=
  (drain engine rowid (t.lockQueue rowid)).map fun sent =>
    ({ t with lockQueue := Function.update t.lockQueue rowid [] }, sent)

end Infinisql.Queues
