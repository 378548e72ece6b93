import Infinisql.Lib.Buffer
import Infinisql.Ref.Row

/-!
# Rows in their buffers

`Ref.Row` has what `makerow` and `unmakerow` compute. Here is how they do it.
The buffer is sized first, from the member `rowsize` or by a sum over the
fields, and then it is written to at a position. A write outside of the buffer
has no result, and neither has a read outside of the row. `makerow` pads the
strings it is given and goes over `rowsize` on the way, `unmakerow` writes into
whatever values the vector already holds, and both say whether they went well.

A length is not negative, and the names of the fields are left out.
-/

namespace Infinisql.Rows

open Infinisql.Lib
open Infinisql.Ref (Bytes Field FieldInput FieldValue Fieldtype Indextype space
  zeros)

/-- `class Table`, as far as its rows go. -/
structure Table where
  fields : List Field
  rowsize : Int
  deriving DecidableEq

/-- A new table. -/
def newTable : Table := ⟨[], 0⟩

/-- The `switch` of `addfield`. The case for FLOAT runs on into the next. -/
def addsize (type : Fieldtype) (length : Nat) (rowsize : Int) : Int :=
  match type with
  | .int | .uint => rowsize + 8
  | .bool | .char => rowsize + 1
  | .float => rowsize + 16 + 1
  | .charx => rowsize + length
  | .varchar => -1
  | .nofieldtype => rowsize

/-- `addfield`, and the id of the field. -/
def addfield (t : Table) (type : Fieldtype) (length : Nat)
    (indextype : Indextype) : Table × Nat :=
  let fields := t.fields ++ [⟨type, length, indextype⟩]
  let rowsize :=
    if t.rowsize ≠ -1 then addsize type length (t.rowsize + 1) else t.rowsize
  (⟨fields, rowsize⟩, fields.length - 1)

/-- A table whose fields have been added one after the other. -/
def addfields (fields : List Field) : Table :=
  fields.foldl (fun t f => (addfield t f.type f.length f.indextype).1) newTable

/-! ## `makerow` -/

/-- The variables of the first loop. -/
structure Sizes where
  rsize : Nat
  rowsize : Int
  hasvarchar : Bool

/-- One round of it. -/
def sizefield (s : Sizes) (f : Field) (v : FieldValue) : Sizes :=
  let rsize := s.rsize + 1
  let rowsize := s.rowsize + 1
  match f.type with
  | .int | .uint => ⟨rsize + 8, rowsize, s.hasvarchar⟩
  | .bool | .char => ⟨rsize + 1, rowsize, s.hasvarchar⟩
  | .float => ⟨rsize + 16, rowsize, s.hasvarchar⟩
  | .charx => ⟨rsize + f.length, rowsize, s.hasvarchar⟩
  | .varchar => ⟨rsize + 8 + v.str.length, rowsize, true⟩
  | .nofieldtype => ⟨rsize, rowsize, s.hasvarchar⟩

def sizefields (s : Sizes) : List Field → List FieldValue → Sizes
  | f :: fields, v :: fieldVal => sizefields (sizefield s f v) fields fieldVal
  | _, _ => s

/-- The size of the buffer, and the member `rowsize` afterwards. -/
def buffersize (t : Table) (fieldVal : List FieldValue) : Nat × Int :=
  if t.rowsize ≠ -1 then (t.rowsize.toNat, t.rowsize)
  else
    let s := sizefields ⟨0, t.rowsize, false⟩ t.fields fieldVal
    (s.rsize, if s.hasvarchar then -1 else s.rowsize)

/-- `memcpy` to `pos`, which goes on behind it. -/
def put (res : Bytes) (pos : Nat) (bytes : Bytes) : Option (Bytes × Nat) :=
  (write res pos bytes).map fun res => (res, pos + bytes.length)

/-- `CHARX` pads the caller's string. -/
def padded (f : Field) (v : FieldValue) : FieldValue :=
  if v.isnull = false ∧ f.type = .charx then
    { v with str := v.str ++ List.replicate (f.length - v.str.length) space }
  else v

/-- One round of the second loop, behind the null byte of a value. -/
def putvalue (f : Field) (v : FieldValue) (res : Bytes) (pos : Nat) :
    Option (Bytes × Nat) :=
  match f.type with
  | .int | .uint => put res pos (v.value.toBytes 8)
  | .bool | .char => put res pos (v.value.toBytes 1)
  | .float => put res pos (v.value.toBytes 16)
  | .charx =>
      (write res pos ((padded f v).str.take f.length)).map fun res =>
        (res, pos + f.length)
  | .varchar =>
      (put res pos (FieldInput.toBytes (.ofNat 128 v.str.length) 8)).bind
        fun (res, pos) => put res pos v.str
  | .nofieldtype => some (res, pos)

def putfield (f : Field) (v : FieldValue) (res : Bytes) (pos : Nat) :
    Option (Bytes × Nat) :=
  if v.isnull = false then
    (put res pos [0]).bind fun (res, pos) => putvalue f v res pos
  else put res pos [1]

def putfields : List Field → List FieldValue → Bytes → Nat → Option Bytes
  | f :: fields, v :: fieldVal, res, pos =>
      (putfield f v res pos).bind fun (res, pos) =>
        putfields fields fieldVal res pos
  | _, _, res, _ => some res

/-- What a call of `makerow` leaves behind. -/
structure Made where
  returned : Bool
  table : Table
  fieldVal : List FieldValue
  res : Bytes

def makerow (t : Table) (fieldVal : List FieldValue) (res : Bytes) :
    Option Made :=
  if fieldVal.length ≠ t.fields.length then
    some ⟨false, t, fieldVal, res⟩
  else
    let (size, rowsize) := buffersize t fieldVal
    (putfields t.fields fieldVal (zeros size) 0).map fun res =>
      ⟨true, ⟨t.fields, rowsize⟩, List.zipWith padded t.fields fieldVal, res⟩

/-! ## `unmakerow` -/

/-- `memcpy` to a member of the union: the bytes beyond it stay. -/
def copyInto (bytes : Bytes) (v : FieldInput) : FieldInput :=
  v >>> (8 * bytes.length) <<< (8 * bytes.length) ||| .ofBytes bytes

/-- A member of `n` bytes, from `pos`. -/
def getmember (n : Nat) (row : Bytes) (pos : Nat) (v : FieldValue) :
    Option (FieldValue × Nat) :=
  (readAt row pos n).map fun bytes =>
    ({ v with value := copyInto bytes v.value }, pos + n)

/-- One round of the loop, behind the null byte of a value. -/
def getvalue (f : Field) (row : Bytes) (pos : Nat) (v : FieldValue) :
    Option (FieldValue × Nat) :=
  match f.type with
  | .int | .uint => getmember 8 row pos v
  | .bool | .char => getmember 1 row pos v
  | .float => getmember 16 row pos v
  | .charx =>
      (assign row pos f.length).map fun str =>
        ({ v with str := str ++ zeros (f.length - str.length) },
          pos + f.length)
  | .varchar =>
      (readAt row pos 8).bind fun bytes =>
        let varcharlength := (FieldInput.ofBytes bytes).uinteger
        (assign row (pos + 8) varcharlength).map fun str =>
          ({ v with str := str }, pos + 8 + varcharlength)
  | .nofieldtype => some (v, pos)

/-- The loop. `rowsize - 1` is unsigned, so that it is no bound for an empty
row, which then is read from. -/
def getfields (row : Bytes) :
    List Field → Nat → List FieldValue → Option (Bool × List FieldValue)
  | f :: fields, pos, v :: resultFields =>
      if row.length ≠ 0 ∧ row.length - 1 ≤ pos then
        some (false, v :: resultFields)
      else
        (readAt row pos 1).bind fun null =>
          if null = [0] then
            (getvalue f row (pos + 1) { v with isnull := false }).bind
              fun (v, pos) => (getfields row fields pos resultFields).map
                fun (ok, vs) => (ok, v :: vs)
          else
            (getfields row fields (pos + 1) resultFields).map
              fun (ok, vs) => (ok, { v with isnull := true } :: vs)
  | _, _, resultFields => some (true, resultFields)

def unmakerow (t : Table) (rowstring : Bytes) (resultFields : List FieldValue) :
    Option (Bool × List FieldValue) :=
  let numfields := t.fields.length
  getfields rowstring t.fields 0 (resultFields.take numfields ++
    List.replicate (numfields - resultFields.length) ({} : FieldValue))

end Infinisql.Rows
