import Infinisql.Ref.Index

/-!
# Row strings

A table's schema and the two functions of `class Table` that turn field
values into a row string and back. A row string is the fields in order, each
a null byte and, unless it is null, the value: fixed-size members as they lie
in memory, `CHARX` padded with spaces to the field's length, `VARCHAR` with
its length in front. What is left of the buffer stays zero, so a row with
nulls has a tail of zeros.

`unmakerow` copies out of the string with `memcpy`. Where the string ends
early the source reads whatever lies behind it; here that reads as zero, and
no row that `makerow` made is read past its end. It also gives up, leaving
the remaining fields at their defaults, when the null byte it is to look at
is the last byte of the string: no field is as small as that but a `CHARX` of
length zero.
-/

namespace Infinisql.Ref

/-- The schema half of `class Field`. The index an engine keeps for a field
is in the engine's partition. -/
structure Field where
  type : Fieldtype
  length : Nat
  indextype : Indextype
  deriving DecidableEq, Repr

/-- `addfield`, as far as `rowsize` goes: -1, here `none`, once there is a
`VARCHAR`. The `FLOAT` case runs on into the one for `CHAR`. -/
def addRowsize (rowsize : Option Nat) (f : Field) : Option Nat :=
  match rowsize with
  | none => none
  | some size =>
      match f.type with
      | .int | .uint => some (size + 1 + 8)
      | .bool | .char => some (size + 1 + 1)
      | .float => some (size + 1 + 16 + 1)
      | .charx => some (size + 1 + f.length)
      | .varchar => none
      | .nofieldtype => some (size + 1)

def rowsize (fields : List Field) : Option Nat :=
  fields.foldl addRowsize (some 0)

/-- The low `n` bytes of the union. -/
def FieldInput.toBytes (v : FieldInput) (n : Nat) : Bytes :=
  (List.range n).map fun i => UInt8.ofNat (v.extractLsb' (8 * i) 8).toNat

def zeros (n : Nat) : Bytes := List.replicate n 0

/-! ## `makerow` -/

/-- The bytes counted for a field when the row size is not fixed. -/
def fieldsize (f : Field) (v : FieldValue) : Nat :=
  match f.type with
  | .int | .uint => 1 + 8
  | .bool | .char => 1 + 1
  | .float => 1 + 16
  | .charx => 1 + f.length
  | .varchar => 1 + 8 + v.str.length
  | .nofieldtype => 1

/-- The value of a field as it is copied into the row. -/
def fieldbytes (f : Field) (v : FieldValue) : Bytes :=
  match f.type with
  | .int | .uint => v.value.toBytes 8
  | .bool | .char => v.value.toBytes 1
  | .float => v.value.toBytes 16
  | .charx =>
      (v.str ++ List.replicate (f.length - v.str.length) space).take f.length
  | .varchar =>
      FieldInput.toBytes (BitVec.ofNat 128 v.str.length) 8 ++ v.str
  | .nofieldtype => []

def makefield (f : Field) (v : FieldValue) : Bytes :=
  if v.isnull then [1] else 0 :: fieldbytes f v

def makerow (fields : List Field) (fieldVal : List FieldValue) :
    Option Bytes :=
  if fieldVal.length ≠ fields.length then none
  else
    let size := (rowsize fields).getD
      (List.zipWith fieldsize fields fieldVal).sum
    let bytes := (List.zipWith makefield fields fieldVal).flatten
    some (bytes ++ zeros (size - bytes.length))

/-! ## `unmakerow` -/

/-- `n` bytes from the string at `pos`. -/
def readBytes (row : Bytes) (pos n : Nat) : Bytes := (row.drop pos).take n

/-- One field from `pos`, past its null byte, and the position after it. -/
def unmakefield (f : Field) (row : Bytes) (pos : Nat) : FieldValue × Nat :=
  match f.type with
  | .int | .uint => ({ value := .ofBytes (readBytes row pos 8) }, pos + 8)
  | .bool | .char => ({ value := .ofBytes (readBytes row pos 1) }, pos + 1)
  | .float => ({ value := .ofBytes (readBytes row pos 16) }, pos + 16)
  | .charx =>
      let str := readBytes row pos f.length
      ({ str := str ++ zeros (f.length - str.length) }, pos + f.length)
  | .varchar =>
      let length := (FieldInput.ofBytes (readBytes row pos 8)).uinteger
      ({ str := readBytes row (pos + 8) length }, pos + 8 + length)
  | .nofieldtype => ({}, pos)

/-- The loop of `unmakerow` from `pos`. `rowsize - 1` is unsigned, so an
empty string does not stop it. -/
def unmakefields (row : Bytes) : List Field → Nat → List FieldValue
  | [], _ => []
  | f :: fields, pos =>
      if row.length ≠ 0 ∧ row.length - 1 ≤ pos then
        (f :: fields).map fun _ => {}
      else if row.getD pos 0 = 0 then
        let (v, pos') := unmakefield f row (pos + 1)
        v :: unmakefields row fields pos'
      else { isnull := true } :: unmakefields row fields (pos + 1)

def unmakerow (fields : List Field) (row : Bytes) : List FieldValue :=
  unmakefields row fields 0

@[simp] theorem length_unmakerow (fields : List Field) (row : Bytes) :
    (unmakerow fields row).length = fields.length := by
  unfold unmakerow
  generalize 0 = pos
  induction fields generalizing pos with
  | nil => rfl
  | cons f fields ih =>
      unfold unmakefields
      split
      · simp
      · split
        · simp [ih]
        · simp [ih]

end Infinisql.Ref
