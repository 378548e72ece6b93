import Infinisql.Ref.SubTransaction

/-!
# The items of a commit

What a transaction has staged is in `stagedRows`: for each row its version
before and after, and the unique entries staged for it.
`continueCommitTransaction`, entry point 1, turns that into items for the
engines. A row goes to the engine that holds it, a null entry to the engine
its field number names, any other index entry to the engine that the hash of
its value names.

The items of an update come from comparing, field by field, the versions
before and after. A field that changed is an entry to add and one to remove,
in this order. A field that did not change needs nothing where the row stays,
and has its entry repointed where the row got a new address. The comparison
is of the values as the row holds them; the items carry them trimmed.

The hash function is a parameter of the model.
-/

namespace Infinisql.Ref

/-- `uuRecord_s`. -/
structure UuRecord where
  rowid : Int
  tableid : Int
  engineid : Int
  deriving DecidableEq, Repr

/-- `pendingprimitive_e`, as far as a staged row has one. -/
inductive Pendingprimitive
  | nocommand
  | insert
  | update
  | delete
  deriving DecidableEq, Repr

/-- `lockFieldValue_s`. -/
structure LockFieldValue where
  locktype : Locktype
  engineid : Int
  fieldVal : FieldValue
  deriving DecidableEq

/-- `stagedRow_s`. -/
structure StagedRow where
  cmd : Pendingprimitive := .nocommand
  originalRow : Bytes := []
  originalrowid : Int := 0
  originalengineid : Int := 0
  previoussubtransactionid : Int := 0
  newRow : Bytes := []
  newrowid : Int := 0
  newengineid : Int := 0
  locktype : Locktype := .noLock
  uniqueIndices : List (Nat × LockFieldValue) := []
  deriving DecidableEq

/-- What a node knows of the cluster: how many partitions there are, and the
hash that spreads index entries over them. -/
structure Topology where
  numpartitions : Nat
  hash64 : Bytes → Nat

/-- The engines of a cluster. -/
abbrev Cluster := Int → Engine

/-- The items built so far for each engine, in the order built. -/
abbrev Msgs := List (Int × List RowOrField)

namespace Transaction

/-- `getEngineid` of a value: the member of the union that the field's type
names, hashed over its own size. -/
def getEngineid (top : Topology) (f : Field) (val : FieldValue) : Int :=
  let engineOf := fun bytes => ((top.hash64 bytes % top.numpartitions : Nat) : Int)
  match f.type with
  | .int | .uint => engineOf (val.value.toBytes 8)
  | .bool | .char => engineOf (val.value.toBytes 1)
  | .float => engineOf (val.value.toBytes 16)
  | .charx | .varchar => engineOf val.str
  | .nofieldtype => -1

/-- The engine of the null entries of a field. -/
def nullEngineid (top : Topology) (n : Nat) : Int :=
  ((n % top.numpartitions : Nat) : Int)

/-- `addRof`: append to the engine's message, or start one. -/
def addRof (engineid : Int) (rof : RowOrField) : Msgs → Msgs
  | [] => [(engineid, [rof])]
  | (e, rofs) :: msgs =>
      if e = engineid then (e, rofs ++ [rof]) :: msgs
      else (e, rofs) :: addRof engineid rof msgs

def addRofs (items : List (Int × RowOrField)) : Msgs :=
  items.foldl (fun msgs item => addRof item.1 item.2 msgs) []

/-- The `switch` before `getEngineid`: only strings are trimmed. -/
def trimField (f : Field) (val : FieldValue) : FieldValue :=
  match f.type with
  | .charx | .varchar => val.trim
  | _ => val

/-! ## One field -/

/-- The comparison of two versions of a field. The union is compared through
`floating`, whatever the type. -/
def changed (original new : FieldValue) : Bool :=
  original.value.floating != new.value.floating ||
    original.isnull != new.isnull || original.str != new.str

/-- The item that adds an entry: commit a staged one, or add a null or
nonunique one. -/
def addItem (top : Topology) (tableid : Int) (n : Nat) (f : Field)
    (rowid engineid : Int) (new : FieldValue) : Int × RowOrField :=
  if new.isnull then
    (nullEngineid top n,
      { tableid := tableid, fieldid := n, isnotaddunique := true
        rowid := rowid, engineid := engineid
        fieldVal := { new with isnull := true } })
  else
    let val := trimField f new
    (getEngineid top f val,
      if f.indextype.isunique then
        { tableid := tableid, fieldid := n, fieldVal := val }
      else
        { tableid := tableid, fieldid := n, isnotaddunique := true
          engineid := engineid, rowid := rowid, fieldVal := val })

/-- The item that removes an entry. -/
def deleteItem (top : Topology) (tableid : Int) (n : Nat) (f : Field)
    (rowid engineid : Int) (original : FieldValue) : Int × RowOrField :=
  let rof : RowOrField :=
    { tableid := tableid, fieldid := n, isnotaddunique := true
      deleteindexentry := true, engineid := engineid, rowid := rowid }
  if original.isnull then
    (nullEngineid top n, { rof with fieldVal := { isnull := true } })
  else
    let val := trimField f original
    (getEngineid top f val, { rof with fieldVal := val })

/-- The item that repoints an entry. -/
def replaceItem (top : Topology) (tableid : Int) (n : Nat) (f : Field)
    (sRow : StagedRow) (original : FieldValue) : Int × RowOrField :=
  let rof : RowOrField :=
    { tableid := tableid, fieldid := n, isreplace := true
      isnotaddunique := true, rowid := sRow.originalrowid
      engineid := sRow.originalengineid, newrowid := sRow.newrowid
      newengineid := sRow.newengineid, fieldVal := original }
  if original.isnull then (nullEngineid top n, rof)
  else
    let val := trimField f original
    (getEngineid top f val, { rof with fieldVal := val })

/-! ## One row

The loops over the fields, skipping those without an index. -/

def forFields (fields : List Field)
    (items : Nat → Field → List (Int × RowOrField)) :
    List (Int × RowOrField) :=
  (List.range fields.length).flatMap fun n =>
    match fields[n]? with
    | none => []
    | some f => if f.indextype = .none then [] else items n f

def insertItems (top : Topology) (fields : List Field) (uur : UuRecord)
    (sRow : StagedRow) : List (Int × RowOrField) :=
  let fieldValues := unmakerow fields sRow.newRow
  forFields fields fun n f =>
    [addItem top uur.tableid n f uur.rowid uur.engineid
      (fieldValues.getD n {})]

def deleteItems (top : Topology) (fields : List Field) (uur : UuRecord)
    (sRow : StagedRow) : List (Int × RowOrField) :=
  let fieldValues := unmakerow fields sRow.originalRow
  forFields fields fun n f =>
    [deleteItem top uur.tableid n f uur.rowid uur.engineid
      (fieldValues.getD n {})]

/-- A field of an update: in place, an unchanged one needs no item; moved,
its entry is repointed. -/
def updateField (top : Topology) (tableid : Int) (sRow : StagedRow)
    (moved : Bool) (n : Nat) (f : Field) (original new : FieldValue) :
    List (Int × RowOrField) :=
  if changed original new then
    [addItem top tableid n f sRow.newrowid sRow.newengineid new,
      deleteItem top tableid n f sRow.originalrowid sRow.originalengineid
        original]
  else if moved then [replaceItem top tableid n f sRow original]
  else []

def updateItems (top : Topology) (fields : List Field) (uur : UuRecord)
    (sRow : StagedRow) (moved : Bool) : List (Int × RowOrField) :=
  let original := unmakerow fields sRow.originalRow
  let new := unmakerow fields sRow.newRow
  forFields fields fun n f =>
    updateField top uur.tableid sRow moved n f (original.getD n {})
      (new.getD n {})

def rowItem (tableid rowid : Int) : RowOrField :=
  { isrow := true, tableid := tableid, rowid := rowid }

/-- Is the update a replace: did the row get another address? -/
def StagedRow.moved (sRow : StagedRow) : Bool :=
  !(sRow.originalrowid == sRow.newrowid &&
    sRow.originalengineid == sRow.newengineid)

/-- The items of one staged row: those of the first messages, and those of
`replaceEngineMsgs`, which wait for the replies to the first. The null item
of an insert carries a blank value. -/
def rowItems (top : Topology) (fields : List Field) (uur : UuRecord)
    (sRow : StagedRow) : List (Int × RowOrField) × List (Int × RowOrField) :=
  let row := (uur.engineid, rowItem uur.tableid uur.rowid)
  match sRow.cmd with
  | .nocommand => ([row], [])
  | .insert => (row :: insertItems top fields uur sRow, [])
  | .delete => (row :: deleteItems top fields uur sRow, [])
  | .update =>
      if StagedRow.moved sRow then
        ((sRow.newengineid, rowItem uur.tableid sRow.newrowid) ::
          updateItems top fields uur sRow true, [row])
      else (row :: updateItems top fields uur sRow false, [])

/-! ## The messages -/

/-- The messages of entry point 1 for all staged rows. -/
def commitMsgs (top : Topology) (schema : Int → List Field)
    (stagedRows : List (UuRecord × StagedRow)) : Msgs × Msgs :=
  let items := stagedRows.map fun (uur, sRow) =>
    rowItems top (schema uur.tableid) uur sRow
  (addRofs (items.flatMap Prod.fst), addRofs (items.flatMap Prod.snd))

/-- Each message carried out at its engine, by the subtransaction the engine
has for the transaction. -/
def deliver (subs : Int → Int) (cmd : Enginecmd) :
    Msgs → Cluster → Option Cluster
  | [], cluster => some cluster
  | (e, rofs) :: msgs, cluster =>
      match SubTransaction.processCommitRollback (subs e) cmd (cluster e)
          rofs with
      | none => none
      | some engine =>
          deliver subs cmd msgs (Function.update cluster e engine)

/-- Entry points 1 and 2: the first messages, and when all are answered those
of `replaceEngineMsgs`. -/
def commit (top : Topology) (schema : Int → List Field) (subs : Int → Int)
    (stagedRows : List (UuRecord × StagedRow)) (cluster : Cluster) :
    Option Cluster :=
  let msgs := commitMsgs top schema stagedRows
  (deliver subs .commitCmd msgs.1 cluster).bind
    (deliver subs .commitCmd msgs.2)

end Transaction

end Infinisql.Ref
