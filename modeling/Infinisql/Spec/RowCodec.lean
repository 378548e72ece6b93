import Infinisql.Ref.RowCodec

/-!
# What a row gives back

A row that is made of values gives the same values back, and it does so
whatever the buffer and the vector held before. The same values are those that
agree in the member that the type of the field names; a `CHARX` string comes
back padded.

Not every row does: `unmakerow` takes a null byte that is the last byte of the
row for the end of the row. `EndsEarly` says which rows end with one.
-/

namespace Infinisql.Rows

open Infinisql.Ref (Bytes Field FieldValue Fieldtype space)

/-- A value that a field can hold: a `CHARX` string is no longer than the field,
and the length of a string is a `size_t`. -/
structure Accepts (f : Field) (v : FieldValue) : Prop where
  charx : f.type = .charx → v.isnull = false → v.str.length ≤ f.length
  size : v.str.length < 2 ^ 64

/-- The value of a field, and what comes back for it. -/
def SameValue (f : Field) (v w : FieldValue) : Prop :=
  w.isnull = v.isnull ∧ (v.isnull = false →
    match f.type with
    | .int => w.value.integer = v.value.integer
    | .uint => w.value.uinteger = v.value.uinteger
    | .bool => w.value.boolean = v.value.boolean
    | .float => w.value = v.value
    | .char => w.value.character = v.value.character
    | .charx =>
        w.str = v.str ++ List.replicate (f.length - v.str.length) space
    | .varchar => w.str = v.str
    | .nofieldtype => True)

/-- Field by field. -/
def SameValues (fields : List Field) (vs ws : List FieldValue) : Prop :=
  ws.length = fields.length ∧
    ∀ (n : Nat) (f : Field) (v w : FieldValue), fields[n]? = some f →
      vs[n]? = some v → ws[n]? = some w → SameValue f v w

/-- `makerow` fits in its buffer, leaves the table as it was and returns true,
and `unmakerow` stays in the row, returns true and gives the same values. -/
def RoundTrips (t : Table) (fieldVal : List FieldValue) : Prop :=
  ∀ (res : Bytes) (resultFields : List FieldValue), ∃ made values,
    makerow t fieldVal res = some made ∧ made.returned = true ∧
      made.table = t ∧
      unmakerow t made.res resultFields = some (true, values) ∧
      SameValues t.fields fieldVal values

/-- A field that takes no more than its null byte. -/
def Empty (f : Field) : Prop :=
  f.type = .charx ∧ f.length = 0 ∨ f.type = .nofieldtype

/-- The last field is an empty one, there is no null in any other, and no space
is left behind it, as there is for a FLOAT if the size is fixed. -/
structure EndsEarly (fields : List Field) (fieldVal : List FieldValue) :
    Prop where
  last : ∃ f, fields.getLast? = some f ∧ Empty f
  nulls : List.Forall₂ (fun f v => v.isnull = true → Empty f) fields fieldVal
  room : (∃ f ∈ fields, f.type = .varchar) ∨ ∀ f ∈ fields, f.type ≠ .float

end Infinisql.Rows
