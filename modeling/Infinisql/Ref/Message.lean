import Infinisql.Ref.SerializedMessage

/-!
# The classes of messages, over the wire

The message classes of `Message.cc` that travel between nodes, each with its
`size`, `package` and `unpack`: the three list the members of the class, and
each begins with those of the class it derives from. `MessageVariant` is an
object of one of these classes. `sermsg` and `Message::des` are the two ends:
the one goes by the payload type in the header to call `ser` of that class,
the other goes by the payload type it finds at the front of the string.

`ser` makes a string of `size()` zeros and packages into it. What it returns
here is that string together with the position the writing stopped at; the
source compares the two and logs a difference.

An `unpack` fills a new object in. Members its constructor leaves
uninitialised and `unpack` does not read are zero here. `nextmsg` is the
mailbox's link and does not travel.
-/

namespace Infinisql.Ref.Wire

open Infinisql.Lib

/-- The string `ser` returns, with the position reached in it. -/
def serobj (size : Nat) (package : BufferM Unit) : Option Buffer :=
  (package (Buffer.zeros size)).map Prod.snd

/-! ## Message -/

structure Message where
  messageStruct : MessageStruct := {}

namespace Message

def size (m : Message) : Nat := sersize m.messageStruct

def package (m : Message) : BufferM Unit := ser m.messageStruct

def unpack : BufferM Message := do
  let messageStruct ← des
  pure { messageStruct }

end Message

/-! ## MessageSocket -/

structure MessageSocket extends Message where
  socketStruct : SocketStruct := {}

namespace MessageSocket

def size (m : MessageSocket) : Nat :=
  m.toMessage.size + sersize m.socketStruct

def package (m : MessageSocket) : BufferM Unit := do
  m.toMessage.package
  ser m.socketStruct

/-- What is read after the header is another header: `des` is given
`messageStruct` again, and `socketStruct` is left as it was. -/
def unpack : BufferM MessageSocket := do
  let _ ← Message.unpack
  let messageStruct ← des
  pure { messageStruct }

end MessageSocket

/-! ## MessageUserSchema -/

structure MessageUserSchema extends Message where
  userschemaStruct : UserschemaStruct := {}
  procs : Procedures := {}
  argstring : Bytes := []
  pathname : Bytes := []
  procname : Bytes := []
  username : Bytes := []
  domainname : Bytes := []
  password : Bytes := []

namespace MessageUserSchema

def size (m : MessageUserSchema) : Nat :=
  m.toMessage.size + sersize m.userschemaStruct + sersize m.procs +
    sersize m.argstring + sersize m.pathname + sersize m.procname +
    sersize m.username + sersize m.domainname + sersize m.password

def package (m : MessageUserSchema) : BufferM Unit := do
  m.toMessage.package
  ser m.userschemaStruct
  ser m.procs
  ser m.argstring
  ser m.pathname
  ser m.procname
  ser m.username
  ser m.domainname
  ser m.password

def unpack : BufferM MessageUserSchema := do
  let toMessage ← Message.unpack
  let userschemaStruct ← des
  let procs ← des
  let argstring ← des
  let pathname ← des
  let procname ← des
  let username ← des
  let domainname ← des
  let password ← des
  pure { toMessage, userschemaStruct, procs, argstring, pathname, procname,
         username, domainname, password }

end MessageUserSchema

/-! ## MessageDeadlock -/

structure MessageDeadlock extends Message where
  deadlockStruct : DeadlockStruct := {}
  deadlockNode : Bytes := []
  nodes : NewDeadLockLists := {}

namespace MessageDeadlock

def size (m : MessageDeadlock) : Nat :=
  m.toMessage.size + sersize m.deadlockStruct + sersize m.deadlockNode +
    sersize m.nodes

def package (m : MessageDeadlock) : BufferM Unit := do
  m.toMessage.package
  ser m.deadlockStruct
  ser m.deadlockNode
  ser m.nodes

def unpack : BufferM MessageDeadlock := do
  let toMessage ← Message.unpack
  let deadlockStruct ← des
  let deadlockNode ← des
  let nodes ← des
  pure { toMessage, deadlockStruct, deadlockNode, nodes }

end MessageDeadlock

/-! ## MessageTransaction -/

structure MessageTransaction extends Message where
  transactionStruct : TransactionStruct := {}

namespace MessageTransaction

def size (m : MessageTransaction) : Nat :=
  m.toMessage.size + sersize m.transactionStruct

def package (m : MessageTransaction) : BufferM Unit := do
  m.toMessage.package
  ser m.transactionStruct

def unpack : BufferM MessageTransaction := do
  let toMessage ← Message.unpack
  let transactionStruct ← des
  pure { toMessage, transactionStruct }

end MessageTransaction

/-! ## MessageSubtransactionCmd -/

structure MessageSubtransactionCmd extends MessageTransaction where
  subtransactionStruct : SubtransactionStruct := {}
  row : Bytes := []
  fieldVal : FieldValue := {}
  indexHits : List NonLockingIndexEntry := []
  searchParameters : SearchParams := {}
  rowids : List (BitVec 64) := []
  returnRows : List ReturnRow := []

namespace MessageSubtransactionCmd

def size (m : MessageSubtransactionCmd) : Nat :=
  m.toMessageTransaction.size + sersize m.subtransactionStruct +
    sersize m.row + sersize m.fieldVal + sersize m.indexHits +
    sersize m.searchParameters + sersize m.rowids + sersize m.returnRows

def package (m : MessageSubtransactionCmd) : BufferM Unit := do
  m.toMessageTransaction.package
  ser m.subtransactionStruct
  ser m.row
  ser m.fieldVal
  ser m.indexHits
  ser m.searchParameters
  ser m.rowids
  ser m.returnRows

def unpack : BufferM MessageSubtransactionCmd := do
  let toMessageTransaction ← MessageTransaction.unpack
  let subtransactionStruct ← des
  let row ← des
  let fieldVal ← des
  let indexHits ← des
  let searchParameters ← des
  let rowids ← des
  let returnRows ← des
  pure { toMessageTransaction, subtransactionStruct, row, fieldVal, indexHits,
         searchParameters, rowids, returnRows }

end MessageSubtransactionCmd

/-! ## MessageCommitRollback -/

structure MessageCommitRollback extends MessageTransaction where
  rofs : List RowOrField := []

namespace MessageCommitRollback

def size (m : MessageCommitRollback) : Nat :=
  m.toMessageTransaction.size + sersize m.rofs

def package (m : MessageCommitRollback) : BufferM Unit := do
  m.toMessageTransaction.package
  ser m.rofs

def unpack : BufferM MessageCommitRollback := do
  let toMessageTransaction ← MessageTransaction.unpack
  let rofs ← des
  pure { toMessageTransaction, rofs }

end MessageCommitRollback

/-! ## MessageDispatch -/

structure MessageDispatch extends Message where
  dispatchStruct : DispatchStruct := {}
  pidsids : UnorderedMap (BitVec 64) (BitVec 64) := {}
  records : UnorderedMap (BitVec 64) (List Record) := {}

namespace MessageDispatch

def size (m : MessageDispatch) : Nat :=
  m.toMessage.size + sersize m.dispatchStruct + sersize m.pidsids +
    sersize m.records

def package (m : MessageDispatch) : BufferM Unit := do
  m.toMessage.package
  ser m.dispatchStruct
  ser m.pidsids
  ser m.records

def unpack : BufferM MessageDispatch := do
  let toMessage ← Message.unpack
  let dispatchStruct ← des
  let pidsids ← des
  let records ← des
  pure { toMessage, dispatchStruct, pidsids, records }

end MessageDispatch

/-! ## MessageAckDispatch -/

structure MessageAckDispatch extends Message where
  ackdispatchStruct : AckdispatchStruct := {}

namespace MessageAckDispatch

def size (m : MessageAckDispatch) : Nat :=
  m.toMessage.size + sersize m.ackdispatchStruct

def package (m : MessageAckDispatch) : BufferM Unit := do
  m.toMessage.package
  ser m.ackdispatchStruct

def unpack : BufferM MessageAckDispatch := do
  let toMessage ← Message.unpack
  let ackdispatchStruct ← des
  pure { toMessage, ackdispatchStruct }

end MessageAckDispatch

/-! ## MessageApply -/

structure MessageApply extends Message where
  applyStruct : ApplyStruct := {}
  rows : List Record := []
  indices : List Applyindex := []

namespace MessageApply

def size (m : MessageApply) : Nat :=
  m.toMessage.size + sersize m.applyStruct + sersize m.rows +
    sersize m.indices

def package (m : MessageApply) : BufferM Unit := do
  m.toMessage.package
  ser m.applyStruct
  ser m.rows
  ser m.indices

def unpack : BufferM MessageApply := do
  let toMessage ← Message.unpack
  let applyStruct ← des
  let rows ← des
  let indices ← des
  pure { toMessage, applyStruct, rows, indices }

end MessageApply

/-! ## MessageAckApply -/

structure MessageAckApply extends Message where
  ackapplyStruct : AckapplyStruct := {}

namespace MessageAckApply

def size (m : MessageAckApply) : Nat :=
  m.toMessage.size + sersize m.ackapplyStruct

def package (m : MessageAckApply) : BufferM Unit := do
  m.toMessage.package
  ser m.ackapplyStruct

def unpack : BufferM MessageAckApply := do
  let toMessage ← Message.unpack
  let ackapplyStruct ← des
  pure { toMessage, ackapplyStruct }

end MessageAckApply

/-! ## The two ends -/

/-- An object of one of the classes. -/
inductive MessageVariant
  | message (m : Message)
  | socket (m : MessageSocket)
  | userSchema (m : MessageUserSchema)
  | deadlock (m : MessageDeadlock)
  | subtransactionCmd (m : MessageSubtransactionCmd)
  | commitRollback (m : MessageCommitRollback)
  | dispatch (m : MessageDispatch)
  | ackDispatch (m : MessageAckDispatch)
  | apply (m : MessageApply)
  | ackApply (m : MessageAckApply)

namespace MessageVariant

/-- The part every class derives from. -/
def base : MessageVariant → Message
  | message m => m
  | socket m => m.toMessage
  | userSchema m => m.toMessage
  | deadlock m => m.toMessage
  | subtransactionCmd m => m.toMessage
  | commitRollback m => m.toMessage
  | dispatch m => m.toMessage
  | ackDispatch m => m.toMessage
  | apply m => m.toMessage
  | ackApply m => m.toMessage

/-- The payload type that the constructors, or the senders of a transaction's
messages, give to objects of the class. -/
def payloadtype : MessageVariant → Payloadtype
  | message _ => .message
  | socket _ => .socket
  | userSchema _ => .userSchema
  | deadlock _ => .deadlock
  | subtransactionCmd _ => .subtransaction
  | commitRollback _ => .commitRollback
  | dispatch _ => .dispatch
  | ackDispatch _ => .ackDispatch
  | apply _ => .apply
  | ackApply _ => .ackApply

/-- `size()` of the object's class. -/
def size : MessageVariant → Nat
  | message m => m.size
  | socket m => m.size
  | userSchema m => m.size
  | deadlock m => m.size
  | subtransactionCmd m => m.size
  | commitRollback m => m.size
  | dispatch m => m.size
  | ackDispatch m => m.size
  | apply m => m.size
  | ackApply m => m.size

/-- `Message::sermsg`. Any object can be sent as a plain message; apart from
that the cast to the class the payload type names is right only for objects
of that class. The payload types with no case return null. -/
def sermsg (msg : MessageVariant) : Option Buffer :=
  match msg.base.messageStruct.payloadtype, msg with
  | .message, m => serobj m.base.size m.base.package
  | .socket, socket m => serobj m.size m.package
  | .userSchema, userSchema m => serobj m.size m.package
  | .deadlock, deadlock m => serobj m.size m.package
  | .subtransaction, subtransactionCmd m => serobj m.size m.package
  | .commitRollback, commitRollback m => serobj m.size m.package
  | .dispatch, dispatch m => serobj m.size m.package
  | .ackDispatch, ackDispatch m => serobj m.size m.package
  | .apply, apply m => serobj m.size m.package
  | .ackApply, ackApply m => serobj m.size m.package
  | _, _ => none

/-- `Message::des`: the object, with how far the string was read. The payload
types with no case give a null pointer. -/
def des (serstr : Bytes) : Option (MessageVariant × Buffer) := do
  let (tmpheader, _) ← (Wire.des : BufferM MessageStruct) ⟨serstr, 0⟩
  match tmpheader.payloadtype with
  | .message => (message <$> Message.unpack) ⟨serstr, 0⟩
  | .socket => (socket <$> MessageSocket.unpack) ⟨serstr, 0⟩
  | .userSchema => (userSchema <$> MessageUserSchema.unpack) ⟨serstr, 0⟩
  | .deadlock => (deadlock <$> MessageDeadlock.unpack) ⟨serstr, 0⟩
  | .subtransaction =>
      (subtransactionCmd <$> MessageSubtransactionCmd.unpack) ⟨serstr, 0⟩
  | .commitRollback =>
      (commitRollback <$> MessageCommitRollback.unpack) ⟨serstr, 0⟩
  | .dispatch => (dispatch <$> MessageDispatch.unpack) ⟨serstr, 0⟩
  | .ackDispatch => (ackDispatch <$> MessageAckDispatch.unpack) ⟨serstr, 0⟩
  | .apply => (apply <$> MessageApply.unpack) ⟨serstr, 0⟩
  | .ackApply => (ackApply <$> MessageAckApply.unpack) ⟨serstr, 0⟩
  | .none | .serialized | .batchSerialized => none

end MessageVariant

end Infinisql.Ref.Wire
