import Infinisql.Ref.Dispatch

/-!
# Replication at an engine

An engine of another replica gets what a transaction changed at its partition
as one `MessageApply`: records of rows, and index items. The messages of
different transactions may overtake each other. An item that does not fit yet
is put aside, under the subtransaction id of its message, and tried again
after every message.

An entry of a unique index names the subtransaction that added it. It decides,
where a key is taken, whether an item has come too early or is to be ignored.
`makeindex` gives an index one map for its entries, and every switch over
`fieldtype` and `indexmaptype` in the functions here picks the member of the
value and the map that go with it. So the map is a member here, and the value
is its `Key`. Strings are not trimmed on this path.

The loop that tries again erases what it could apply through the iterator it
goes on with, a vector's for an item and a map's for a set that has become
empty. That has no result, and neither has an UPDATE of a row that is not
there, which puts a null pointer in the table and follows it.
-/

namespace Infinisql.Ref

/-- `rowdata_s`, as far as the apply functions set it. -/
structure AppliedRow where
  previoussubtransactionid : Int
  row : Bytes
  deriving DecidableEq, Repr

/-- `lockingIndexEntry`, with the subtransaction that added it. -/
structure AppliedIndexEntry where
  rowid : Int
  engineid : Int
  subtransactionid : Int
  previoussubtransactionid : Int
  deriving DecidableEq, Repr

/-- `applyindex_s`. The one flag says whether the entry is added. -/
structure ApplyIndex where
  fieldVal : FieldValue
  rowid : Int
  engineid : Int
  isadd : Bool
  tableid : Int
  fieldid : Nat
  deriving DecidableEq

structure MessageApply where
  sourceAddr : AddressStruct
  subtransactionid : Int
  applierid : Int
  rows : List DispatchRecord
  indices : List ApplyIndex := []
  deriving DecidableEq

/-- `MessageAckApply`, with the address it is sent to. -/
structure MessageAckApply where
  destAddr : AddressStruct
  subtransactionid : Int
  applierid : Int
  deriving DecidableEq

/-! ## An index -/

/-- `class Index` with the map that its type has. -/
structure ReplicaIndex where
  indextype : Indextype
  fieldtype : Fieldtype
  unique : Key → Option AppliedIndexEntry
  nonunique : List (Key × NonLockingIndexEntry)
  nulls : Finset (Int × Int)

namespace ReplicaIndex

def makeindex (indextype : Indextype) (fieldtype : Fieldtype) :
    ReplicaIndex :=
  { indextype := indextype
    fieldtype := fieldtype
    unique := fun _ => none
    nonunique := []
    nulls := ∅ }

def checkifthere (i : ReplicaIndex) (val : FieldValue) : Bool :=
  match val.key i.fieldtype with
  | none => false
  | some key => (i.unique key).isSome

def addifnotthere (i : ReplicaIndex) (val : FieldValue)
    (rowid engineid subtransactionid : Int) : Bool × ReplicaIndex :=
  match val.key i.fieldtype with
  | none => (true, i)
  | some key =>
      match i.unique key with
      | some _ => (false, i)
      | none =>
          let entry := ⟨rowid, engineid, 0, subtransactionid⟩
          (true, { i with unique := Function.update i.unique key (some entry) })

/-- Called where there is an entry. -/
def checkifmatch (i : ReplicaIndex) (val : FieldValue)
    (rowid engineid : Int) : Bool :=
  match (val.key i.fieldtype).bind i.unique with
  | none => false
  | some entry => entry.rowid = rowid && entry.engineid = engineid

def rm (i : ReplicaIndex) (val : FieldValue) : ReplicaIndex :=
  match val.key i.fieldtype with
  | none => i
  | some key => { i with unique := Function.update i.unique key none }

/-- Called where there is an entry. -/
def getprevioussubtransactionid (i : ReplicaIndex) (val : FieldValue) : Int :=
  match (val.key i.fieldtype).bind i.unique with
  | none => -1
  | some entry => entry.previoussubtransactionid

/-- The null branches of `applyItem`, the same for both kinds of index. -/
def applyNull (i : ReplicaIndex) (indexinfo : ApplyIndex) :
    Bool × ReplicaIndex :=
  let v := (indexinfo.rowid, indexinfo.engineid)
  if indexinfo.isadd then (true, { i with nulls := insert v i.nulls })
  else if v ∈ i.nulls then (true, { i with nulls := i.nulls.erase v })
  else (false, i)

def applyUnique (i : ReplicaIndex) (subtransactionid : Int)
    (indexinfo : ApplyIndex) : Bool × ReplicaIndex :=
  let val := indexinfo.fieldVal
  if indexinfo.isadd then
    let (added, i') := i.addifnotthere val indexinfo.rowid indexinfo.engineid
      subtransactionid
    if added then (true, i')
    else if i'.getprevioussubtransactionid val > subtransactionid then
      (false, i')
    else (true, i')
  else if i.checkifthere val then
    if i.checkifmatch val indexinfo.rowid indexinfo.engineid then
      (true, i.rm val)
    else if i.getprevioussubtransactionid val < subtransactionid then (false, i)
    else (true, i)
  else (false, i)

instance (e : Key × NonLockingIndexEntry)
    (entries : List (Key × NonLockingIndexEntry)) : Decidable (e ∈ entries) :=
  inferInstance

/-- The multimap: an entry to remove is looked for among those of its key. -/
def applyNonunique (i : ReplicaIndex) (indexinfo : ApplyIndex) :
    Bool × ReplicaIndex :=
  match indexinfo.fieldVal.key i.fieldtype with
  | none => (true, i)
  | some key =>
      let e := (key, ⟨indexinfo.rowid, indexinfo.engineid⟩)
      if indexinfo.isadd then
        (true, { i with nonunique := i.nonunique ++ [e] })
      else if e ∈ i.nonunique then
        (true, { i with nonunique := i.nonunique.erase e })
      else (false, i)

/-- `Engine::applyItem` of an index item: whether it has been dealt with. -/
def applyItem (i : ReplicaIndex) (subtransactionid : Int)
    (indexinfo : ApplyIndex) : Bool × ReplicaIndex :=
  if indexinfo.fieldVal.isnull then i.applyNull indexinfo
  else if i.indextype.isunique then i.applyUnique subtransactionid indexinfo
  else i.applyNonunique indexinfo

end ReplicaIndex

/-! ## Rows -/

/-- `Engine::applyItem` of a record, on the rows of its table. -/
def applyRecord (subtransactionid : Int) (record : DispatchRecord)
    (rows : Int → Option AppliedRow) :
    Option (Bool × (Int → Option AppliedRow)) :=
  match record.primitive with
  | .insert =>
      match rows record.rowid with
      | some _ => some (false, rows)
      | none =>
          some (true, Function.update rows record.rowid
            (some ⟨subtransactionid, record.row⟩))
  | .update =>
      match rows record.rowid with
      | some _ => some (false, rows)
      | none => none
  | .delete =>
      match rows record.rowid with
      | none => some (false, rows)
      | some row =>
          if row.previoussubtransactionid ≠ subtransactionid then
            some (false, rows)
          else some (true, Function.update rows record.rowid none)
  | .nocommand => some (false, rows)

/-! ## The engine -/

/-- `background_s`: the items of a message that have been put aside. -/
structure Background where
  applierid : Int
  taAddress : AddressStruct
  rows : List DispatchRecord := []
  indices : List ApplyIndex := []
  deriving DecidableEq

/-- An engine, and the acknowledgements it has sent. -/
structure ReplicaEngine where
  rows : Int → Int → Option AppliedRow
  index : Int → Nat → ReplicaIndex
  backgrounded : List (Int × Background)
  acks : List MessageAckApply

namespace ReplicaEngine

/-- An engine of a database with no rows. -/
def new (schema : Int → List Field) : ReplicaEngine :=
  { rows := fun _ _ => none
    index := fun tableid n =>
      let f := (schema tableid).getD n ⟨.nofieldtype, 0, .none⟩
      .makeindex f.indextype f.type
    backgrounded := []
    acks := [] }

/-- `backgrounded[subtransactionid]`, made if it is not there, with an item
pushed onto it. -/
def background (msg : MessageApply) (push : Background → Background) :
    List (Int × Background) → List (Int × Background)
  | [] =>
      [(msg.subtransactionid,
        push { applierid := msg.applierid, taAddress := msg.sourceAddr })]
  | (id, b) :: backgrounded =>
      if id = msg.subtransactionid then (id, push b) :: backgrounded
      else (id, b) :: background msg push backgrounded

/-- The loop over the records. -/
def applyRows (msg : MessageApply) :
    List DispatchRecord → ReplicaEngine → Option ReplicaEngine
  | [], e => some e
  | r :: records, e =>
      match applyRecord msg.subtransactionid r (e.rows r.tableid) with
      | none => none
      | some (true, rows) =>
          applyRows msg records
            { e with rows := Function.update e.rows r.tableid rows }
      | some (false, _) =>
          applyRows msg records
            { e with
              backgrounded := background msg
                (fun b => { b with rows := b.rows ++ [r] }) e.backgrounded }

def setIndex (e : ReplicaEngine) (tableid : Int) (n : Nat)
    (i : ReplicaIndex) : ReplicaEngine :=
  { e with
    index := Function.update e.index tableid
      (Function.update (e.index tableid) n i) }

/-- The loop over the index items. -/
def applyIndices (msg : MessageApply) :
    List ApplyIndex → ReplicaEngine → ReplicaEngine
  | [], e => e
  | x :: indices, e =>
      let (done, i) := (e.index x.tableid x.fieldid).applyItem
        msg.subtransactionid x
      if done then applyIndices msg indices (e.setIndex x.tableid x.fieldid i)
      else
        applyIndices msg indices
          { e with
            backgrounded := background msg
              (fun b => { b with indices := b.indices ++ [x] })
              e.backgrounded }

/-- The acknowledgement of a message of which nothing is put aside. -/
def ackApply (msg : MessageApply) (e : ReplicaEngine) : ReplicaEngine :=
  if e.backgrounded.any (·.1 = msg.subtransactionid) then e
  else
    { e with
      acks := e.acks ++
        [⟨msg.sourceAddr, msg.subtransactionid, msg.applierid⟩] }

/-- Does a record still not fit? -/
def keepsRow (e : ReplicaEngine) (subtransactionid : Int)
    (r : DispatchRecord) : Bool :=
  match applyRecord subtransactionid r (e.rows r.tableid) with
  | some (false, _) => true
  | _ => false

/-- Does an index item still not fit? -/
def keepsIndex (e : ReplicaEngine) (subtransactionid : Int)
    (x : ApplyIndex) : Bool :=
  !((e.index x.tableid x.fieldid).applyItem subtransactionid x).1

/-- The walk through the items put aside, which ends where it has to erase
one. An item that does not fit changes nothing. -/
def retry (e : ReplicaEngine) : Option ReplicaEngine :=
  if e.backgrounded.all fun (id, b) =>
      b.rows.all (e.keepsRow id) && b.indices.all (e.keepsIndex id) then
    some e
  else none

/-- `Engine::apply`. -/
def apply (e : ReplicaEngine) (msg : MessageApply) : Option ReplicaEngine :=
  (applyRows msg msg.rows e).bind fun e =>
    (ackApply msg (applyIndices msg msg.indices e)).retry

end ReplicaEngine

end Infinisql.Ref
