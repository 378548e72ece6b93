import Infinisql.Ref.Insert

/-!
# The UPDATE statement

`continueUpdate` visits the rows that the search found, one after the other.
For each it evaluates the assignments, collects the new values in `setFields`,
makes the new row and sends it off: to the engine that has the row, with the
changed unique values ahead of it, or, where the first field is assigned, as a
new row to the engine that the first field's value names.

An assignment is a tree, and evaluating it rewrites it. An operator whose
operands come out becomes its result, a field reference becomes the value of
the field, and that is what the next row finds. An operator that cannot be
applied stays, with its children as they are by then, and has the operand it
had, which the parser leaves empty.

The arithmetic of `long double` is a parameter, and so is its conversion to
an integer. An integer division that the processor traps has no result.
Subqueries are left out: their operands stay as they are.
-/

namespace Infinisql.Ref

/-! ## Operands -/

def operandString : UInt8 := 97

def operandParameter : UInt8 := 99

def operandFieldid : UInt8 := 104

def operandBoolean : UInt8 := 108

/-- `operand[0]`. -/
def operandType (operand : Bytes) : UInt8 := operand.getD 0 0

/-- The eight bytes from `operand[1]`, as an `int64_t`. -/
def integerOf (operand : Bytes) : BitVec 64 :=
  (FieldInput.ofBytes ((operand.drop 1).take 8)).setWidth 64

/-- The sixteen bytes from `operand[1]`, as a `long double`. -/
def floatOf (operand : Bytes) : FieldInput :=
  .ofBytes ((operand.drop 1).take 16)

def integerOperand (val : BitVec 64) : Bytes :=
  operandInteger :: FieldInput.toBytes (val.setWidth 128) 8

/-- `resize`. -/
def resize (s : Bytes) (n : Nat) (c : UInt8) : Bytes :=
  s.take n ++ List.replicate (n - s.length) c

/-- `Ast::toFloat` into an operand. The operand type stays as it is, also that
of an integer; an empty operand is filled up with the letter of a float. -/
def toFloatOperand (operand : Bytes) : Bytes :=
  if operandType operand = operandInteger then
    integerOperand (integerOf operand)
  else if operandType operand = operandFloat then operand
  else operand.getD 0 operandFloat :: (floatOf operand).toBytes 16

/-! ## Trees -/

/-- The operators of an assignment with two operands. -/
inductive Assignop
  | concatenation
  | addition
  | subtraction
  | multiplication
  | division
  deriving DecidableEq, Repr

/-- `class Ast`, to the right of an assignment. -/
inductive Ast
  | operand (operand : Bytes)
  | binary (operatortype : Assignop) (operand : Bytes)
      (leftchild rightchild : Ast)
  | negation (operand : Bytes) (rightchild : Ast)
  deriving DecidableEq

namespace Ast

def getOperand : Ast → Bytes
  | .operand s => s
  | .binary _ s _ _ => s
  | .negation s _ => s

def setOperand (operand : Bytes) : Ast → Ast
  | .operand _ => Ast.operand operand
  | .binary op _ leftchild rightchild =>
      Ast.binary op operand leftchild rightchild
  | .negation _ rightchild => Ast.negation operand rightchild

end Ast

/-- The machine's `long double`. -/
structure LongDouble where
  add : FieldInput → FieldInput → FieldInput
  sub : FieldInput → FieldInput → FieldInput
  mul : FieldInput → FieldInput → FieldInput
  div : FieldInput → FieldInput → FieldInput
  toInteger : FieldInput → BitVec 64

namespace Assignop

/-- On integers. -/
def integer (a b : BitVec 64) : Assignop → Option (BitVec 64)
  | .concatenation => none
  | .addition => some (a + b)
  | .subtraction => some (a - b)
  | .multiplication => some (a * b)
  | .division =>
      if b = 0#64 || (a = BitVec.intMin 64 && b = BitVec.allOnes 64) then none
      else some (a.sdiv b)

/-- On floats. -/
def floating (ld : LongDouble) (a b : FieldInput) :
    Assignop → Option FieldInput
  | .concatenation => none
  | .addition => some (ld.add a b)
  | .subtraction => some (ld.sub a b)
  | .multiplication => some (ld.mul a b)
  | .division => some (ld.div a b)

end Assignop

namespace Ast

/-! ## `evaluateAssignment` -/

/-- The result of an operator on floats: an `int64_t`, copied over the first
eight bytes. -/
def floatResult (ld : LongDouble) (operand : Bytes) (val : FieldInput) :
    Bytes :=
  operandFloat :: FieldInput.toBytes ((ld.toInteger val).setWidth 128) 8 ++
    (resize operand 17 0).drop 9

/-- The `switch` on the left operand's type. -/
def calculate (ld : LongDouble) (op : Assignop) (operand : Bytes)
    (leftchild rightchild : Ast) : Option Ast :=
  let left := leftchild.getOperand
  let right := rightchild.getOperand
  if operandType left = operandInteger then
    if operandType right = operandInteger then
      (op.integer (integerOf left) (integerOf right)).map fun val =>
        .operand (integerOperand val)
    else some (.binary op operand leftchild rightchild)
  else if operandType left = operandFloat then
    if operandType right = operandFloat then
      (op.floating ld (floatOf left) (floatOf right)).map fun val =>
        .operand (floatResult ld operand val)
    else some (.binary op operand leftchild rightchild)
  else some (.binary op operand leftchild rightchild)

/-- An arithmetic operator, its children evaluated. -/
def arithmetic (ld : LongDouble) (op : Assignop) (operand : Bytes)
    (leftchild rightchild : Ast) : Option Ast :=
  if operandType leftchild.getOperand = operandFloat ∨
      operandType rightchild.getOperand = operandFloat then
    calculate ld op operand
      (leftchild.setOperand (toFloatOperand leftchild.getOperand))
      (rightchild.setOperand (toFloatOperand rightchild.getOperand))
  else calculate ld op operand leftchild rightchild

/-- `OPERATOR_CONCATENATION`, its children evaluated. -/
def concatenation (operand : Bytes) (leftchild rightchild : Ast) : Ast :=
  let left := leftchild.getOperand
  let right := rightchild.getOperand
  if operandType left = operandString ∧ operandType right = operandString then
    .operand (operandString :: (left.drop 1 ++ right.drop 1))
  else .binary .concatenation operand leftchild rightchild

/-- `OPERATOR_NEGATION`, its child evaluated. -/
def negate (ld : LongDouble) (operand : Bytes) (rightchild : Ast) : Ast :=
  let right := rightchild.getOperand
  if operandType right = operandInteger then
    .operand (integerOperand (0 - integerOf right))
  else if operandType right = operandFloat then
    .operand (floatResult ld operand (ld.sub 0#128 (floatOf right)))
  else .negation operand rightchild

/-- The operand that a field reference becomes. Of a `FLOAT` eight bytes are
copied, and a null is not looked for. -/
def fieldOperand (operand : Bytes) (f : Field) (v : FieldValue) : Bytes :=
  match f.type with
  | .int | .uint => integerOperand (v.value.setWidth 64)
  | .bool => integerOperand (if v.value.boolean then 1#64 else 0#64)
  | .float => operandFloat :: v.value.toBytes 8 ++ (resize operand 17 0).drop 9
  | .char => [operandString, UInt8.ofNat v.value.character.toNat]
  | .charx | .varchar => operandString :: v.str
  | .nofieldtype => operand

/-- `normalizeSetAssignmentOperand`. -/
def normalizeSetAssignmentOperand (fields : List Field)
    (fieldValues : List FieldValue) (parameters : List Bytes)
    (operand : Bytes) : Option Bytes :=
  if operandType operand = operandFieldid then
    let fieldid := (integerOf operand).toNat
    match fields[fieldid]?, fieldValues[fieldid]? with
    | some f, some v => some (fieldOperand operand f v)
    | _, _ => none
  else if operandType operand = operandParameter then
    parameters[(integerOf operand).toNat]?
  else some operand

def evaluateAssignment (ld : LongDouble) (fields : List Field)
    (fieldValues : List FieldValue) (parameters : List Bytes) :
    Ast → Option Ast
  | .operand s =>
      (normalizeSetAssignmentOperand fields fieldValues parameters s).map
        Ast.operand
  | .binary op s leftchild rightchild =>
      match leftchild.evaluateAssignment ld fields fieldValues parameters,
        rightchild.evaluateAssignment ld fields fieldValues parameters with
      | some leftchild, some rightchild =>
          if op = .concatenation then
            some (concatenation s leftchild rightchild)
          else arithmetic ld op s leftchild rightchild
      | _, _ => none
  | .negation s rightchild =>
      (rightchild.evaluateAssignment ld fields fieldValues parameters).map
        (negate ld s)

end Ast

namespace Statement

/-! ## `continueUpdate` -/

/-- The value that an evaluated assignment gives its field. -/
def assignedValue (f : Field) (operand : Bytes) : Option FieldValue :=
  if operandType operand = operandNull then some { isnull := true }
  else
    match f.type with
    | .int | .uint => some { value := (integerOf operand).setWidth 128 }
    | .bool =>
        some { value := if integerOf operand = 0#64 then 0#128 else 1#128 }
    | .float => some { value := toFloat operand }
    | .char => some { value := .ofBytes ((operand.drop 1).take 1) }
    | .charx | .varchar => some { str := operand.drop 1 }
    | .nofieldtype => none

/-- `fieldidAssignments`, and `setFields`. -/
abbrev Assignments := List (Nat × Ast)

abbrev SetFields := Nat → Option FieldValue

/-- The loop over the assignments, for one row. -/
def assign (ld : LongDouble) (fields : List Field)
    (fieldValues : List FieldValue) (parameters : List Bytes) :
    Assignments → SetFields → Option (Assignments × SetFields)
  | [], setFields => some ([], setFields)
  | (n, ast) :: rest, setFields =>
      match ast.evaluateAssignment ld fields fieldValues parameters,
        fields[n]? with
      | some ast', some f =>
          match assignedValue f ast'.getOperand with
          | none => none
          | some fieldValue =>
              (assign ld fields fieldValues parameters rest
                (Function.update setFields n (some fieldValue))).map
                fun (rest', setFields') => ((n, ast') :: rest', setFields')
      | _, _ => none

/-- A message to an engine. -/
inductive SubtransactionCmd
  | newrow (tableid : Int) (row : Bytes)
  | updaterow (tableid rowid : Int) (row : Bytes)
  | uniqueindex (tableid rowid engineid : Int) (fieldid : Nat)
      (fieldVal : FieldValue)
  deriving DecidableEq

/-- The values of the row with those of `setFields` in their places. -/
def setValues (fields : List Field) (fieldValues : List FieldValue)
    (setFields : SetFields) : List FieldValue :=
  (List.range fields.length).map fun n =>
    (setFields n).getD (fieldValues.getD n {})

/-- The same where the row stays: the value of a unique field is asked for its
engine, which trims it. -/
def trimValues (top : Topology) (fields : List Field)
    (fieldValues : List FieldValue) (setFields : SetFields) :
    List FieldValue :=
  (List.range fields.length).map fun n =>
    match setFields n, fields[n]? with
    | some v, some f =>
        if f.indextype.isunique then (Transaction.getengine top f v).2 else v
    | some v, none => v
    | none, _ => fieldValues.getD n {}

/-- The unique entries that an update in place stages. -/
def updateUniqueIndices (top : Topology) (fields : List Field)
    (setFields : SetFields) : List (Nat × LockFieldValue) :=
  (List.range fields.length).filterMap fun n =>
    match setFields n, fields[n]? with
    | some v, some f =>
        if f.indextype.isunique then
          let (engineid, val) := Transaction.getengine top f v
          some (n, { locktype := .indexLock, engineid := engineid
                     fieldVal := val })
        else none
    | _, _ => none

/-- One row of an update: what is staged for it, and what is sent, with the
engine it is sent to. -/
structure Updated where
  stagedRow : StagedRow
  eventwaitcount : Nat
  sent : List (Int × SubtransactionCmd)

/-- A row whose first field is not assigned stays where it is. -/
def updateInPlace (top : Topology) (fields : List Field) (uur : UuRecord)
    (returnRow : ReturnRow) (setFields : SetFields) : Updated :=
  let fieldValues := unmakerow fields returnRow.row
  let uniqueIndices := updateUniqueIndices top fields setFields
  let newRow :=
    (makerow fields (trimValues top fields fieldValues setFields)).getD []
  { stagedRow :=
      { cmd := .update, originalRow := returnRow.row
        originalrowid := uur.rowid, originalengineid := uur.engineid
        previoussubtransactionid := returnRow.previoussubtransactionid
        newRow := newRow, newrowid := uur.rowid, newengineid := uur.engineid
        locktype := .writeLock, uniqueIndices := uniqueIndices }
    eventwaitcount := uniqueIndices.length + 1
    sent := (uniqueIndices.map fun (n, val) =>
        (val.engineid, .uniqueindex uur.tableid uur.rowid uur.engineid n
          val.fieldVal)) ++
      [(uur.engineid, .updaterow uur.tableid uur.rowid newRow)] }

/-- A row whose first field is assigned is replaced. What was staged for it
before keeps its unique entries. The new row goes to the statement's table. -/
def updateReplace (top : Topology) (tableid : Int) (fields : List Field)
    (uur : UuRecord) (returnRow : ReturnRow) (stagedRow : StagedRow)
    (setFields : SetFields) : Updated :=
  let fieldValues :=
    setValues fields (unmakerow fields returnRow.row) setFields
  let newRow := (makerow fields fieldValues).getD []
  let newengineid := match fields[0]?, fieldValues[0]? with
    | some f, some v => (Transaction.getengine top f v).1
    | _, _ => -1
  { stagedRow := { stagedRow with
      cmd := .update, originalRow := returnRow.row
      originalrowid := uur.rowid, originalengineid := uur.engineid
      previoussubtransactionid := returnRow.previoussubtransactionid
      newRow := newRow, newengineid := newengineid, locktype := .writeLock }
    eventwaitcount := 0
    sent := [(newengineid, .newrow tableid newRow)] }

/-- Entry point 2 for one row of the search results. -/
def updateRow (ld : LongDouble) (top : Topology) (tableid : Int)
    (fields : List Field) (parameters : List Bytes) (assignments : Assignments)
    (setFields : SetFields) (uur : UuRecord) (returnRow : ReturnRow)
    (stagedRow : StagedRow) :
    Option (Updated × Assignments × SetFields) :=
  match assign ld fields (unmakerow fields returnRow.row) parameters
      assignments setFields with
  | none => none
  | some (assignments', setFields') =>
      let updated := if (setFields' 0).isNone then
        updateInPlace top fields uur returnRow setFields'
        else
          updateReplace top tableid fields uur returnRow stagedRow setFields'
      some (updated, assignments', setFields')

/-- The rows of the search results in the order they are visited, where every
reply lets the statement go on. -/
def continueUpdate (ld : LongDouble) (top : Topology) (tableid : Int)
    (fields : List Field) (parameters : List Bytes)
    (stagedRows : UuRecord → StagedRow) :
    Assignments → SetFields → List (UuRecord × ReturnRow) →
      Option (List (UuRecord × Updated))
  | _, _, [] => some []
  | assignments, setFields, (uur, returnRow) :: rest =>
      match updateRow ld top tableid fields parameters assignments setFields
          uur returnRow (stagedRows uur) with
      | none => none
      | some (updated, assignments', setFields') =>
          (continueUpdate ld top tableid fields parameters stagedRows
            assignments' setFields' rest).map ((uur, updated) :: ·)

end Statement

end Infinisql.Ref
