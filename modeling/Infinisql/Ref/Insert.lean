import Infinisql.Ref.Routing

/-!
# The INSERT statement

From the operands of the VALUES list to the staged row. `branchtotype`
converts the operands by the types of the fields, makes the row string and
sends it to the engine of the first field's value. When the reply brings the
rowid, `continueSqlInsert` stages the values of the unique fields, each at the
engine its value names, and when all replies say `INDEXLOCK` the statement is
done. Any other reply aborts it.

The values change on the way. `makerow` pads the strings of `CHARX` fields in
the caller's vector, and `getengine` trims them again. What is staged is the
statement's value trimmed, not the value as the row has it.

An operand is a string whose first byte says what it is. What is read past
its end reads as zero.
-/

namespace Infinisql.Ref

/-! ## Operands -/

/-- `OPERAND_NULL`, `OPERAND_INTEGER` and `OPERAND_FLOAT`. -/
def operandNull : UInt8 := 105

def operandInteger : UInt8 := 101

def operandFloat : UInt8 := 102

/-- `(long double)val`. Every 64-bit integer has its extended double. -/
def FieldInput.ofInt (val : Int) : FieldInput :=
  if val = 0 then 0#128
  else
    let n := val.natAbs
    let exponent := 16383 + n.log2
    let significand := n <<< (63 - n.log2)
    let sign := if val < 0 then 2 ^ 79 else 0
    BitVec.ofNat 128 (sign + exponent * 2 ^ 64 + significand)

/-- `Ast::toFloat` into a field value. -/
def toFloat (inoperand : Bytes) : FieldInput :=
  let arg := inoperand.drop 1
  if inoperand.getD 0 0 = operandInteger then
    .ofInt (FieldInput.ofBytes (arg.take 8)).integer
  else if inoperand.getD 0 0 = operandFloat then .ofBytes (arg.take 16)
  else 0#128

/-- One operand of the VALUES list. -/
def insertValue (f : Field) (operand : Bytes) : FieldValue :=
  if operand.getD 0 0 = operandNull then { isnull := true }
  else
    let arg := operand.drop 1
    match f.type with
    | .int | .uint => { value := .ofBytes (arg.take 8) }
    | .bool => { value := if arg.getD 0 0 = 116 then 1#128 else 0#128 }
    | .float => { value := toFloat operand }
    | .char => { value := .ofBytes (arg.take 1) }
    | .charx | .varchar => { str := arg }
    | .nofieldtype => {}

/-- The index types that do not take nulls. -/
def Indextype.isnotnull : Indextype → Bool
  | .uniquenotnull | .nonuniquenotnull | .unorderednotnull => true
  | .none | .unique | .nonunique | .unordered => false

/-- The `APISTATUS` values that the statements below report. -/
inductive Apistatus
  | ok
  | notok
  | nullconstraint
  | pending
  | uniqueconstraint
  | lock
  deriving DecidableEq, Repr

namespace SubTransaction

/-- `NEWROW`. -/
def newrow (s : Int) (e : Engine) (tableid : Int) (row : Bytes) :
    Option (Int × Engine) :=
  match e.tables tableid with
  | none => none
  | some p =>
      let (newrowid, t) := p.store.getnextrowid
      let p' := { p with store := t.newrow newrowid s row }
      some (newrowid,
        { e with tables := Function.update e.tables tableid (some p') })

/-- `UNIQUEINDEX`. -/
def uniqueIndex (s : Int) (e : Engine) (tableid : Int) (fieldid : Nat)
    (rowid engineid pendingcmdid tacmdentrypoint : Int) (val : FieldValue) :
    Option (Locktype × Engine) :=
  match e.tables tableid with
  | none => none
  | some p =>
      let queueEntry : LockQueueIndexEntry :=
        { pendingcmdid := pendingcmdid, tacmdentrypoint := tacmdentrypoint
          entry := ⟨rowid, engineid, s⟩ }
      match (p.index fieldid).uniqueIndex queueEntry val with
      | none => none
      | some (locktype, _, i) =>
          let p' := { p with index := Function.update p.index fieldid i }
          some (locktype,
            { e with tables := Function.update e.tables tableid (some p') })

end SubTransaction

namespace Statement

/-! ## `branchtotype`, case `CMD_INSERT` -/

/-- The loop over the operands. More operands than fields read a field that
is not there. -/
def insertValues : List Field → List Bytes →
    Option (Except Apistatus (List FieldValue))
  | _, [] => some (.ok [])
  | [], _ :: _ => none
  | f :: fields, operand :: operands =>
      let fieldValue := insertValue f operand
      if fieldValue.isnull && f.indextype.isnotnull then
        some (.error .nullconstraint)
      else
        (insertValues fields operands).map fun rest =>
          rest.map (fieldValue :: ·)

/-- What `makerow` leaves in the caller's vector. -/
def padField (f : Field) (v : FieldValue) : FieldValue :=
  if !v.isnull && f.type = .charx then
    { v with str := v.str ++
        List.replicate (f.length - v.str.length) space }
  else v

/-- A row that is to be inserted: its string, the values as they are then,
and the engine it goes to. -/
structure Newrow where
  newrow : Bytes
  insertValues : List FieldValue
  newrowengineid : Int

/-- The second half of `CMD_INSERT`, with the values accepted. The first
value is trimmed in place when it is asked for its engine. -/
def makeNewrow (top : Topology) (fields : List Field)
    (values : List FieldValue) : Option Newrow :=
  match makerow fields values, fields.head?,
    (List.zipWith padField fields values).head? with
  | some row, some f, some v =>
      let (engineid, v') := Transaction.getengine top f v
      some
        { newrow := row
          insertValues := v' :: (List.zipWith padField fields values).tail
          newrowengineid := engineid }
  | _, _, _ => none

/-! ## `continueSqlInsert` -/

/-- The unique entries to stage: those of the values that are not null. -/
def uniqueValues (top : Topology) (fields : List Field)
    (values : List FieldValue) : List (Nat × LockFieldValue) :=
  (List.range fields.length).filterMap fun n =>
    match fields[n]?, values[n]? with
    | some f, some v =>
        if f.indextype.isunique && !v.isnull then
          let (engineid, val) := Transaction.getengine top f v
          some (n, { locktype := .indexLock, engineid := engineid
                     fieldVal := val })
        else none
    | _, _ => none

/-- The `UNIQUEINDEX` messages of one row, and their replies. -/
def stageUnique (subs : Int → Int) (tableid rowid engineid pendingcmdid : Int) :
    List (Nat × LockFieldValue) → Cluster →
      Option (List Locktype × Cluster)
  | [], c => some ([], c)
  | (n, lockFieldValue) :: rest, c =>
      let e := lockFieldValue.engineid
      match SubTransaction.uniqueIndex (subs e) (c e) tableid n rowid engineid
          pendingcmdid 2 lockFieldValue.fieldVal with
      | none => none
      | some (locktype, engine) =>
          (stageUnique subs tableid rowid engineid pendingcmdid rest
            (Function.update c e engine)).map fun (locktypes, c') =>
              (locktype :: locktypes, c')

/-- What a reply other than `INDEXLOCK` aborts the statement with. -/
def stagingStatus : List Locktype → Apistatus
  | [] => .ok
  | .indexLock :: rest => stagingStatus rest
  | .noLock :: _ => .uniqueconstraint
  | _ :: _ => .notok

/-- The whole statement, with the staged row it leaves. -/
structure Inserted where
  status : Apistatus
  uur : UuRecord
  sRow : StagedRow
  cluster : Cluster

def insert (top : Topology) (fields : List Field) (subs : Int → Int)
    (tableid pendingcmdid : Int) (values : List FieldValue) (c : Cluster) :
    Option Inserted :=
  match makeNewrow top fields values with
  | none => none
  | some new =>
      let e := new.newrowengineid
      match SubTransaction.newrow (subs e) (c e) tableid new.newrow with
      | none => none
      | some (rowid, engine) =>
          let uniqueIndices := uniqueValues top fields new.insertValues
          (stageUnique subs tableid rowid e pendingcmdid uniqueIndices
            (Function.update c e engine)).map fun (locktypes, c') =>
              { status := stagingStatus locktypes
                uur := { rowid := rowid, tableid := tableid, engineid := e }
                sRow :=
                  { cmd := .insert, newRow := new.newrow, newrowid := rowid
                    locktype := .writeLock, uniqueIndices := uniqueIndices }
                cluster := c' }

end Statement

end Infinisql.Ref
