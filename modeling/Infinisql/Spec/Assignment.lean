import Infinisql.Ref.Update

/-!
# What an assignment means

The value of an expression over one row: integers wrap at 64 bits, an integer
with a float is a float, anything with a null is null, and there is no value
where the types do not fit or an integer division has no result. A `BOOL`
field counts as 0 or 1.

A value goes into a field whose type takes it. The row that an update should
leave is the old one with the assigned fields set so, all computed from the
old row.
-/

namespace Infinisql.Spec

open Infinisql.Ref

inductive Value
  | null
  | integer (v : BitVec 64)
  | float (v : FieldInput)
  | string (v : Bytes)
  | boolean (v : Bool)
  deriving DecidableEq

namespace Value

/-- The value of a field. -/
def ofField (f : Field) (v : FieldValue) : Option Value :=
  if v.isnull then some .null
  else
    match f.type with
    | .int | .uint => some (.integer (v.value.setWidth 64))
    | .bool => some (.integer (if v.value.boolean then 1#64 else 0#64))
    | .float => some (.float v.value)
    | .char => some (.string [UInt8.ofNat v.value.character.toNat])
    | .charx | .varchar => some (.string v.str)
    | .nofieldtype => none

/-- The value of a literal. -/
def literal (operand : Bytes) : Option Value :=
  if operandType operand = operandNull then some .null
  else if operandType operand = operandInteger then
    some (.integer (integerOf operand))
  else if operandType operand = operandFloat then
    some (.float (floatOf operand))
  else if operandType operand = operandString then
    some (.string (operand.drop 1))
  else if operandType operand = operandBoolean then
    if operand.getD 1 0 = 116 then some (.boolean true)
    else if operand.getD 1 0 = 102 then some (.boolean false)
    else none
  else none

def apply (ld : LongDouble) (op : Assignop) : Value → Value → Option Value
  | .null, _ => some .null
  | _, .null => some .null
  | .integer a, .integer b => (op.integer a b).map .integer
  | .integer a, .float b => (op.floating ld (.ofInt a.toInt) b).map .float
  | .float a, .integer b => (op.floating ld a (.ofInt b.toInt)).map .float
  | .float a, .float b => (op.floating ld a b).map .float
  | .string a, .string b =>
      if op = .concatenation then some (.string (a ++ b)) else none
  | _, _ => none

def negate (ld : LongDouble) : Value → Option Value
  | .null => some .null
  | .integer a => some (.integer (0 - a))
  | .float a => some (.float (ld.sub 0#128 a))
  | _ => none

/-- The field value that a value becomes in a field. -/
def toField (f : Field) : Value → Option FieldValue
  | .null => some { isnull := true }
  | .integer v =>
      match f.type with
      | .int | .uint => some { value := v.setWidth 128 }
      | .bool => some { value := if v = 0#64 then 0#128 else 1#128 }
      | .float => some { value := .ofInt v.toInt }
      | _ => none
  | .float v => if f.type = .float then some { value := v } else none
  | .string v =>
      match f.type with
      | .char => some { value := .ofBytes (v.take 1) }
      | .charx | .varchar => some { str := v }
      | _ => none
  | .boolean v =>
      if f.type = .bool then
        some { value := if v then 1#128 else 0#128 }
      else none

end Value

/-- The value of an expression over a row. -/
def eval (ld : LongDouble) (fields : List Field)
    (fieldValues : List FieldValue) (parameters : List Bytes) :
    Ast → Option Value
  | .operand s =>
      if operandType s = operandFieldid then
        match fields[(integerOf s).toNat]?,
          fieldValues[(integerOf s).toNat]? with
        | some f, some v => Value.ofField f v
        | _, _ => none
      else if operandType s = operandParameter then
        (parameters[(integerOf s).toNat]?).bind Value.literal
      else Value.literal s
  | .binary op _ leftchild rightchild =>
      match eval ld fields fieldValues parameters leftchild,
        eval ld fields fieldValues parameters rightchild with
      | some a, some b => Value.apply ld op a b
      | _, _ => none
  | .negation _ rightchild =>
      (eval ld fields fieldValues parameters rightchild).bind
        (Value.negate ld)

/-- The new value of field `n` of a row. -/
def newValue (ld : LongDouble) (fields : List Field) (parameters : List Bytes)
    (assignments : Statement.Assignments) (row : Bytes) (n : Nat) :
    Option FieldValue :=
  let fieldValues := unmakerow fields row
  match assignments.lookup n with
  | none => some (fieldValues.getD n {})
  | some ast =>
      match fields[n]? with
      | none => none
      | some f =>
          (eval ld fields fieldValues parameters ast).bind (Value.toField f)

/-- The row that an update should leave. -/
def newRow (ld : LongDouble) (fields : List Field) (parameters : List Bytes)
    (assignments : Statement.Assignments) (row : Bytes) : Option Bytes :=
  ((List.range fields.length).mapM
    (newValue ld fields parameters assignments row)).bind (makerow fields)

end Infinisql.Spec
