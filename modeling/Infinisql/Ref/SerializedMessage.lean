import Mathlib.Data.List.Nodup
import Infinisql.Lib.Codec
import Infinisql.Ref.Value

/-!
# Serialized messages

`SerializedMessage` of `Message.cc`: the string a message for another node is
written into, the position in it, and the overloads `ser`, `sersize` and
`des`. Here they are the three members of `Serial`, one instance for each
type that has them in the source, in the source's order: the scalars, the
containers, the packed structures, then the nested ones. Nothing makes the
three members of an instance agree; they are three functions, and where the
source's formulas part the instance has it so.

The packed structures are copied by their bytes, so what matters of them is
the layout: each says which members follow each other, with the widths of
`defs.h` and `Message.h`. The enumerations are a byte wide, except the engine
command of a transaction, which is an `int`; only the payload type is looked
at here, and the others stay words. `procedures_s` is two pointers, which go
over the wire as they are.

A boost set or map is the list of its elements in the order an iteration
meets them, with no element and no key twice. One that is read back holds
its elements in the order they came in; the code that is modelled here does
not iterate over it again.

A `size_t` that counts a container is written and read as eight bytes, so
what is read is the count modulo two to the sixty-fourth.
-/

namespace Infinisql.Ref.Wire

open Infinisql.Lib

/-- The overloads for one type. -/
class Serial (α : Type) where
  ser : α → BufferM Unit
  sersize : α → Nat
  des : BufferM α

export Serial (ser sersize des)

/-! ## Scalars and packed structures

One pair of `memcpy`s with the size of the type, whatever the type is. -/

@[reducible] def Serial.pod (α : Type) [Pod α] : Serial α where
  ser d := Buffer.write (Pod.toBytes d)
  sersize _ := Pod.sizeof α
  des := do
    let bytes ← Buffer.read (Pod.sizeof α)
    pure (Pod.ofBytes bytes)

instance : Serial (BitVec 64) := .pod (BitVec 64)
instance : Serial (BitVec 32) := .pod (BitVec 32)
instance : Serial (BitVec 16) := .pod (BitVec 16)
instance : Serial (BitVec 8) := .pod (BitVec 8)

/-- The casts `(int8_t)d.isnull` and `(int8_t *)&d.isnull`, and their likes
for the other flags. -/
instance : Serial Bool := .pod Bool

/-- `payloadtype_e`. -/
inductive Payloadtype
  | none
  | message
  | socket
  | userSchema
  | deadlock
  | subtransaction
  | commitRollback
  | dispatch
  | ackDispatch
  | apply
  | ackApply
  | serialized
  | batchSerialized
  deriving DecidableEq, Repr

def Payloadtype.toByte : Payloadtype → BitVec 8
  | .none => 0
  | .message => 1
  | .socket => 2
  | .userSchema => 3
  | .deadlock => 4
  | .subtransaction => 5
  | .commitRollback => 6
  | .dispatch => 7
  | .ackDispatch => 8
  | .apply => 9
  | .ackApply => 10
  | .serialized => 11
  | .batchSerialized => 12

/-- A byte that names no payload type is taken for `PAYLOADNONE`: the switch
over the payload type treats the two alike. -/
def Payloadtype.ofByte (c : BitVec 8) : Payloadtype :=
  match c.toNat with
  | 1 => .message
  | 2 => .socket
  | 3 => .userSchema
  | 4 => .deadlock
  | 5 => .subtransaction
  | 6 => .commitRollback
  | 7 => .dispatch
  | 8 => .ackDispatch
  | 9 => .apply
  | 10 => .ackApply
  | 11 => .serialized
  | 12 => .batchSerialized
  | _ => .none

instance : Pod Payloadtype :=
  .via Payloadtype.toByte Payloadtype.ofByte fun p => by cases p <;> rfl

/-- `Topology::addressStruct`. -/
structure AddressStruct where
  nodeid : BitVec 16 := 0
  actorid : BitVec 16 := 0
  deriving DecidableEq

instance : Pod AddressStruct :=
  .via (fun d => (d.nodeid, d.actorid)) (fun p => ⟨p.1, p.2⟩) fun _ => rfl

/-- `message_s`. -/
structure MessageStruct where
  payloadtype : Payloadtype := .none
  topic : BitVec 8 := 0
  sourceAddr : AddressStruct := {}
  destAddr : AddressStruct := {}
  deriving DecidableEq

instance : Pod MessageStruct :=
  .via (fun d => (d.payloadtype, d.topic, d.sourceAddr, d.destAddr))
    (fun (a, b, c, d) => ⟨a, b, c, d⟩) fun _ => rfl

/-- `socket_s`. -/
structure SocketStruct where
  socket : BitVec 32 := 0
  events : BitVec 32 := 0
  listenertype : BitVec 8 := 0
  deriving DecidableEq

instance : Pod SocketStruct :=
  .via (fun d => (d.socket, d.events, d.listenertype))
    (fun (a, b, c) => ⟨a, b, c⟩) fun _ => rfl

/-- `userschema_s`. -/
structure UserschemaStruct where
  operationtype : BitVec 8 := 0
  caller : BitVec 8 := 0
  callerstate : BitVec 8 := 0
  argsize : BitVec 64 := 0
  instance_ : BitVec 64 := 0
  operationid : BitVec 64 := 0
  domainid : BitVec 64 := 0
  userid : BitVec 64 := 0
  tableid : BitVec 64 := 0
  fieldlen : BitVec 64 := 0
  builtincmd : BitVec 64 := 0
  indexid : BitVec 64 := 0
  tableindexid : BitVec 64 := 0
  simple : BitVec 64 := 0
  fieldid : BitVec 64 := 0
  numfields : BitVec 64 := 0
  intdata : BitVec 64 := 0
  status : BitVec 64 := 0
  indextype : BitVec 8 := 0
  fieldtype : BitVec 8 := 0
  deriving DecidableEq

instance : Pod UserschemaStruct :=
  .via
    (fun d => (d.operationtype, d.caller, d.callerstate, d.argsize,
      d.instance_, d.operationid, d.domainid, d.userid, d.tableid, d.fieldlen,
      d.builtincmd, d.indexid, d.tableindexid, d.simple, d.fieldid,
      d.numfields, d.intdata, d.status, d.indextype, d.fieldtype))
    (fun (a, b, c, d, e, f, g, h, i, j, k, l, m, n, o, p, q, r, s, t) =>
      ⟨a, b, c, d, e, f, g, h, i, j, k, l, m, n, o, p, q, r, s, t⟩)
    fun _ => rfl

/-- `procedures_s`: two pointers. -/
structure Procedures where
  procedurecreator : BitVec 64 := 0
  proceduredestroyer : BitVec 64 := 0
  deriving DecidableEq

instance : Pod Procedures :=
  .via (fun d => (d.procedurecreator, d.proceduredestroyer))
    (fun p => ⟨p.1, p.2⟩) fun _ => rfl

/-- `deadlock_s`. -/
structure DeadlockStruct where
  transactionid : BitVec 64 := 0
  tainstance : BitVec 64 := 0
  transactionPendingcmdid : BitVec 64 := 0
  deadlockchange : BitVec 64 := 0
  deriving DecidableEq

instance : Pod DeadlockStruct :=
  .via (fun d => (d.transactionid, d.tainstance, d.transactionPendingcmdid,
      d.deadlockchange))
    (fun (a, b, c, d) => ⟨a, b, c, d⟩) fun _ => rfl

/-- `transaction_s`. -/
structure TransactionStruct where
  transactionid : BitVec 64 := 0
  subtransactionid : BitVec 64 := 0
  previoussubtransactionid : BitVec 64 := 0
  tainstance : BitVec 16 := 0
  domainid : BitVec 16 := 0
  transactionEnginecmd : BitVec 32 := 0
  transactionPendingcmdid : BitVec 32 := 0
  transactionTacmdentrypoint : BitVec 8 := 0
  engineinstance : BitVec 16 := 0
  deriving DecidableEq

instance : Pod TransactionStruct :=
  .via
    (fun d => (d.transactionid, d.subtransactionid,
      d.previoussubtransactionid, d.tainstance, d.domainid,
      d.transactionEnginecmd, d.transactionPendingcmdid,
      d.transactionTacmdentrypoint, d.engineinstance))
    (fun (a, b, c, d, e, f, g, h, i) => ⟨a, b, c, d, e, f, g, h, i⟩)
    fun _ => rfl

/-- `subtransaction_s`. -/
structure SubtransactionStruct where
  status : BitVec 8 := 0
  isrow : Bool := false
  rowid : BitVec 64 := 0
  tableid : BitVec 16 := 0
  locktype : BitVec 8 := 0
  forwardRowid : BitVec 64 := 0
  forwardEngineid : BitVec 16 := 0
  fieldid : BitVec 16 := 0
  engineid : BitVec 16 := 0
  deriving DecidableEq

instance : Pod SubtransactionStruct :=
  .via
    (fun d => (d.status, d.isrow, d.rowid, d.tableid, d.locktype,
      d.forwardRowid, d.forwardEngineid, d.fieldid, d.engineid))
    (fun (a, b, c, d, e, f, g, h, i) => ⟨a, b, c, d, e, f, g, h, i⟩)
    fun _ => rfl

/-- `nonLockingIndexEntry_s`. -/
structure NonLockingIndexEntry where
  rowid : BitVec 64 := 0
  engineid : BitVec 16 := 0
  deriving DecidableEq

instance : Pod NonLockingIndexEntry :=
  .via (fun d => (d.rowid, d.engineid)) (fun p => ⟨p.1, p.2⟩) fun _ => rfl

/-- `dispatch_s`. -/
structure DispatchStruct where
  transactionid : BitVec 64 := 0
  domainid : BitVec 64 := 0
  deriving DecidableEq

instance : Pod DispatchStruct :=
  .via (fun d => (d.transactionid, d.domainid)) (fun p => ⟨p.1, p.2⟩)
    fun _ => rfl

/-- `ackdispatch_s`. -/
structure AckdispatchStruct where
  transactionid : BitVec 64 := 0
  status : BitVec 32 := 0
  deriving DecidableEq

instance : Pod AckdispatchStruct :=
  .via (fun d => (d.transactionid, d.status)) (fun p => ⟨p.1, p.2⟩)
    fun _ => rfl

/-- `apply_s`. -/
structure ApplyStruct where
  subtransactionid : BitVec 64 := 0
  applierid : BitVec 64 := 0
  domainid : BitVec 64 := 0
  deriving DecidableEq

instance : Pod ApplyStruct :=
  .via (fun d => (d.subtransactionid, d.applierid, d.domainid))
    (fun (a, b, c) => ⟨a, b, c⟩) fun _ => rfl

/-- `ackapply_s`. -/
structure AckapplyStruct where
  subtransactionid : BitVec 64 := 0
  applierid : BitVec 64 := 0
  partitionid : BitVec 64 := 0
  status : BitVec 32 := 0
  deriving DecidableEq

instance : Pod AckapplyStruct :=
  .via (fun d => (d.subtransactionid, d.applierid, d.partitionid, d.status))
    (fun (a, b, c, d) => ⟨a, b, c, d⟩) fun _ => rfl

instance : Serial MessageStruct := .pod MessageStruct
instance : Serial SocketStruct := .pod SocketStruct
instance : Serial UserschemaStruct := .pod UserschemaStruct
instance : Serial Procedures := .pod Procedures
instance : Serial DeadlockStruct := .pod DeadlockStruct
instance : Serial TransactionStruct := .pod TransactionStruct
instance : Serial SubtransactionStruct := .pod SubtransactionStruct
instance : Serial NonLockingIndexEntry := .pod NonLockingIndexEntry
instance : Serial DispatchStruct := .pod DispatchStruct
instance : Serial AckdispatchStruct := .pod AckdispatchStruct
instance : Serial ApplyStruct := .pod ApplyStruct
instance : Serial AckapplyStruct := .pod AckapplyStruct

/-! ## Containers -/

/-- `ser((int64_t)d.size())`. -/
def serCount (n : Nat) : BufferM Unit := ser (BitVec.ofNat 64 n)

/-- `size_t s; des((int64_t *)&s);`. -/
def desCount : BufferM Nat := do
  let s ← (des : BufferM (BitVec 64))
  pure s.toNat

/-- A string. Nothing is copied for an empty one, and `at(pos)` is not asked
for. -/
instance : Serial Bytes where
  ser d := do
    serCount d.length
    if d.length = 0 then pure () else Buffer.write d
  sersize d := 8 + d.length
  des := do
    let s ← desCount
    if s = 0 then pure [] else Buffer.read s

section Vector

variable {α : Type} [Serial α]

/-- The loop of every `ser(vector<T> &)`. -/
def serVector (d : List α) : BufferM Unit := do
  serCount d.length
  writeAll ser d

/-- The loop of the `sersize(vector<T> &)` that add their items up. -/
def sersizeVector (d : List α) : Nat := 8 + (d.map sersize).sum

/-- The loop of every `des(vector<T> &)`. -/
def desVector : BufferM (List α) := do
  let s ← desCount
  readInto des (fun d val => d ++ [val]) s []

end Vector

instance : Serial (List (BitVec 64)) where
  ser := serVector
  sersize d := 8 + d.length * 8
  des := desVector

instance : Serial (List NonLockingIndexEntry) where
  ser := serVector
  sersize d := 8 + d.length * Pod.sizeof NonLockingIndexEntry
  des := desVector

/-- `boost::unordered_set`. -/
structure UnorderedSet (α : Type) where
  elems : List α := []
  nodup : elems.Nodup := by simp

def UnorderedSet.insert {α : Type} [DecidableEq α] (d : UnorderedSet α)
    (val : α) : UnorderedSet α :=
  if h : val ∈ d.elems then d
  else
    ⟨d.elems ++ [val], by
      rw [← List.concat_eq_append]
      exact d.nodup.concat h⟩

/-- `boost::unordered_map`. -/
structure UnorderedMap (κ ν : Type) where
  entries : List (κ × ν) := []
  nodup : (entries.map Prod.fst).Nodup := by simp

/-- `d[key] = val`. -/
def UnorderedMap.set {κ ν : Type} [DecidableEq κ] (d : UnorderedMap κ ν)
    (key : κ) (val : ν) : UnorderedMap κ ν :=
  if h : key ∈ d.entries.map Prod.fst then
    ⟨d.entries.map fun p => if p.1 = key then (key, val) else p, by
      have hkeys : (d.entries.map fun p => if p.1 = key then (key, val) else p
          ).map Prod.fst = d.entries.map Prod.fst := by
        rw [List.map_map]
        refine List.map_congr_left fun p _ => ?_
        simp only [Function.comp_apply]
        split
        · next heq => exact heq.symm
        · rfl
      rw [hkeys]
      exact d.nodup⟩
  else
    ⟨d.entries ++ [(key, val)], by
      rw [← List.concat_eq_append, List.map_concat]
      exact d.nodup.concat h⟩

/-- The map of ids. Its size counts one byte for the count of entries times
the entries, where the writer puts eight bytes down. -/
instance : Serial (UnorderedMap (BitVec 64) (BitVec 64)) where
  ser d := do
    serCount d.entries.length
    writeAll (fun p => do ser p.1; ser p.2) d.entries
  sersize d := d.entries.length + d.entries.length * 2 * 8
  des := do
    let s ← desCount
    readInto
      (do
        let val1 ← (des : BufferM (BitVec 64))
        let val2 ← (des : BufferM (BitVec 64))
        pure (val1, val2))
      (fun d p => d.set p.1 p.2) s {}

/-! ## Level 1 -/

instance : Serial (UnorderedSet Bytes) where
  ser d := do
    serCount d.elems.length
    writeAll ser d.elems
  sersize d := 8 + (d.elems.map sersize).sum
  des := do
    let s ← desCount
    readInto des UnorderedSet.insert s {}

/-- The union is copied whole, as sixteen bytes. -/
instance : Serial FieldValue where
  ser d := do
    Buffer.write (Pod.toBytes d.value)
    ser d.str
    ser d.isnull
  sersize d := Pod.sizeof FieldInput + sersize d.str + sersize d.isnull
  des := do
    let value ← (Serial.pod FieldInput).des
    let str ← des
    let isnull ← des
    pure { value, str, isnull }

/-- `returnRow_s`. -/
structure ReturnRow where
  rowid : BitVec 64 := 0
  previoussubtransactionid : BitVec 64 := 0
  locktype : BitVec 8 := 0
  row : Bytes := []
  deriving DecidableEq

instance : Serial ReturnRow where
  ser d := do
    ser d.rowid
    ser d.previoussubtransactionid
    ser d.locktype
    ser d.row
  sersize d := sersize d.rowid + sersize d.previoussubtransactionid +
    sersize d.locktype + sersize d.row
  des := do
    let rowid ← des
    let previoussubtransactionid ← des
    let locktype ← des
    let row ← des
    pure { rowid, previoussubtransactionid, locktype, row }

/-- `MessageDispatch::record_s`. -/
structure Record where
  rowid : BitVec 64 := 0
  primitive : BitVec 8 := 0
  tableid : BitVec 64 := 0
  previoussubtransactionid : BitVec 64 := 0
  row : Bytes := []
  oldrow : Bytes := []
  deriving DecidableEq

instance : Serial Record where
  ser d := do
    ser d.rowid
    ser d.primitive
    ser d.tableid
    ser d.previoussubtransactionid
    ser d.row
    ser d.oldrow
  sersize d := sersize d.rowid + sersize d.primitive + sersize d.tableid +
    sersize d.previoussubtransactionid + sersize d.row + sersize d.oldrow
  des := do
    let rowid ← des
    let primitive ← des
    let tableid ← des
    let previoussubtransactionid ← des
    let row ← des
    let oldrow ← des
    pure { rowid, primitive, tableid, previoussubtransactionid, row, oldrow }

/-! ## Level 2 -/

/-- `newDeadLockLists_s`. -/
structure NewDeadLockLists where
  locked : UnorderedSet Bytes := {}
  waiting : UnorderedSet Bytes := {}

instance : Serial NewDeadLockLists where
  ser d := do
    ser d.locked
    ser d.waiting
  sersize d := sersize d.locked + sersize d.waiting
  des := do
    let locked ← des
    let waiting ← des
    pure { locked, waiting }

instance : Serial (List FieldValue) := ⟨serVector, sersizeVector, desVector⟩
instance : Serial (List ReturnRow) := ⟨serVector, sersizeVector, desVector⟩
instance : Serial (List Record) := ⟨serVector, sersizeVector, desVector⟩

/-- `rowOrField_s`. -/
structure RowOrField where
  isrow : Bool := false
  tableid : BitVec 16 := 0
  rowid : BitVec 64 := 0
  fieldid : BitVec 16 := 0
  engineid : BitVec 16 := 0
  deleteindexentry : Bool := false
  isnotaddunique : Bool := false
  isreplace : Bool := false
  newrowid : BitVec 64 := 0
  newengineid : BitVec 16 := 0
  fieldVal : FieldValue := {}
  deriving DecidableEq

instance : Serial RowOrField where
  ser d := do
    ser d.isrow
    ser d.tableid
    ser d.rowid
    ser d.fieldid
    ser d.engineid
    ser d.deleteindexentry
    ser d.isnotaddunique
    ser d.isreplace
    ser d.newrowid
    ser d.newengineid
    ser d.fieldVal
  sersize d := sersize d.isrow + sersize d.tableid + sersize d.rowid +
    sersize d.fieldid + sersize d.engineid + sersize d.deleteindexentry +
    sersize d.isnotaddunique + sersize d.isreplace + sersize d.newrowid +
    sersize d.newengineid + sersize d.fieldVal
  des := do
    let isrow ← des
    let tableid ← des
    let rowid ← des
    let fieldid ← des
    let engineid ← des
    let deleteindexentry ← des
    let isnotaddunique ← des
    let isreplace ← des
    let newrowid ← des
    let newengineid ← des
    let fieldVal ← des
    pure { isrow, tableid, rowid, fieldid, engineid, deleteindexentry,
           isnotaddunique, isreplace, newrowid, newengineid, fieldVal }

/-- `MessageApply::applyindex_s`. -/
structure Applyindex where
  fieldVal : FieldValue := {}
  entry : NonLockingIndexEntry := {}
  flags : BitVec 8 := 0
  tableid : BitVec 16 := 0
  fieldid : BitVec 16 := 0
  deriving DecidableEq

/-- `data[pos++]=d.flags;`. `data` is a pointer to the string, so this
assigns the character to the string that would lie `pos` strings behind it:
at position 0 that is the message's own, elsewhere there is none. -/
def serFlags (flags : BitVec 8) : BufferM Unit := fun b =>
  if b.pos = 0 then some ((), ⟨Pod.toBytes flags, 1⟩) else none

instance : Serial Applyindex where
  ser d := do
    ser d.fieldVal
    ser d.entry
    serFlags d.flags
    ser d.tableid
    ser d.fieldid
  sersize d := sersize d.fieldVal + sersize d.entry + 1 + sersize d.tableid +
    sersize d.fieldid
  des := do
    let fieldVal ← des
    let entry ← des
    let flags ← des
    let tableid ← des
    let fieldid ← des
    pure { fieldVal, entry, flags, tableid, fieldid }

/-! ## Level 3 -/

/-- `searchParams_s`. -/
structure SearchParams where
  op : BitVec 8 := 0
  values : List FieldValue := []
  regexString : Bytes := []
  deriving DecidableEq

instance : Serial SearchParams where
  ser d := do
    ser d.op
    ser d.values
    ser d.regexString
  sersize d := sersize d.op + sersize d.values + sersize d.regexString
  des := do
    let op ← des
    let values ← des
    let regexString ← des
    pure { op, values, regexString }

instance : Serial (List RowOrField) := ⟨serVector, sersizeVector, desVector⟩
instance : Serial (List Applyindex) := ⟨serVector, sersizeVector, desVector⟩

/-- The map of record vectors. Its size is that of the map of ids, whatever
the vectors hold. -/
instance : Serial (UnorderedMap (BitVec 64) (List Record)) where
  ser d := do
    serCount d.entries.length
    writeAll (fun p => do ser p.1; ser p.2) d.entries
  sersize d := d.entries.length + d.entries.length * 2 * 8
  des := do
    let s ← desCount
    readInto
      (do
        let val1 ← (des : BufferM (BitVec 64))
        let val2 ← (des : BufferM (List Record))
        pure (val1, val2))
      (fun d p => d.set p.1 p.2) s {}

end Infinisql.Ref.Wire
