import Std.Data.String.ToInt
import Infinisql.Lib.Parser
import Infinisql.Spec.PgOutput

/-!
# What a client reads of a result

The formats of `RowDescription` and `DataRow`, from the client's side: a
message is its type, its length, which counts itself but not the type, and a
body that is used up exactly. The client knows types by their object
identifiers. A value comes as text, and a number is read from its digits.
There is one kind of eight-byte integer, and a value of an INT or a UINT field
is read as one.
-/

namespace Infinisql.Spec.Client

open Infinisql.Lib
open Infinisql.Lib.Parser (int untilZero require lift times forAll toEnd)
open Infinisql.Ref (Bytes FieldValue Fieldtype)
open Infinisql.Ref.Output
open Infinisql.Spec.Output (BackendMessage)

inductive PgType
  | int8
  | bool
  | char
  | bpchar
  | varchar
  deriving DecidableEq

structure Column where
  name : Bytes
  type : PgType
  deriving DecidableEq

inductive Datum
  | int8 (v : Int)
  | bool (v : Bool)
  | text (v : Bytes)
  deriving DecidableEq

/-! ## The client -/

def PgType.ofOid (oid : Int) : Option PgType :=
  if oid = 20 then some .int8
  else if oid = 16 then some .bool
  else if oid = 18 then some .char
  else if oid = 1042 then some .bpchar
  else if oid = 1043 then some .varchar
  else none

/-- The number that is written there. -/
def ofDecimal (text : Bytes) : Option Int :=
  (String.ofList (text.map fun b => Char.ofNat b.toNat)).toInt?

def PgType.read : PgType → Bytes → Option Datum
  | .int8, text => (ofDecimal text).map .int8
  | .bool, text =>
      if text = ascii "t" then some (.bool true)
      else if text = ascii "f" then some (.bool false)
      else none
  | .char, text => if text.length = 1 then some (.text text) else none
  | .bpchar, text | .varchar, text => some (.text text)

/-- Name, object identifier and column of the table, type, its size and
modifier, and format, of which there is the text format. -/
def column : Parser Column := do
  let name ← untilZero
  let _ ← int 4
  let _ ← int 2
  let oid ← int 4
  let _ ← int 2
  let _ ← int 4
  let format ← int 2
  require (format = 0)
  let type ← lift (PgType.ofOid oid)
  pure ⟨name, type⟩

/-- So many columns. -/
def columns : Parser (List Column) := do
  let n ← int 2
  require (0 ≤ n)
  times column n.toNat

/-- A length and so many bytes, or -1 for NULL. -/
def datum (type : PgType) : Parser (Option Datum) := do
  let len ← int 4
  if len = -1 then pure none
  else do
    require (0 ≤ len)
    let text ← Parser.bytes len.toNat
    let v ← lift (type.read text)
    pure (some v)

def row (cols : List Column) : Parser (List (Option Datum)) := do
  let n ← int 2
  require (n = cols.length)
  forAll (fun col => datum col.type) cols

/-- The body of a message of this type. -/
def body (type : Char) : Parser Bytes := do
  let t ← Parser.bytes 1
  require (t = ascii type.toString)
  let len ← int 4
  require (4 ≤ len)
  Parser.bytes (len - 4).toNat

/-- A message of this type whose body is one of these. -/
def message {α : Type} (type : Char) (p : Parser α) : Parser α := do
  let b ← body type
  lift (Parser.run p b)

/-- One description, and rows until the bytes are used up. -/
def result (s : Bytes) : Option (List Column × List (List (Option Datum))) :=
  match message 'T' columns s with
  | none => none
  | some (cols, rest) =>
      (Parser.run (toEnd (message 'D' (row cols)) rest.length) rest).map
        fun rows => (cols, rows)

/-! ## The result -/

/-- What a type is called there. FLOAT is left out. -/
def pgType : Fieldtype → Option PgType
  | .int | .uint => some .int8
  | .bool => some .bool
  | .char => some .char
  | .charx => some .bpchar
  | .varchar => some .varchar
  | .float | .nofieldtype => none

/-- The value of a field that is not NULL. -/
def datumOf (type : Fieldtype) (val : FieldValue) : Datum :=
  match type with
  | .int => .int8 val.value.integer
  | .uint => .int8 val.value.uinteger
  | .bool => .bool val.value.boolean
  | .char => .text [UInt8.ofNat val.value.character.toNat]
  | _ => .text val.str

def columnsOf (fields : List Fieldtypename) : List Column :=
  fields.filterMap fun field =>
    (pgType field.type).map fun type => ⟨field.name, type⟩

def datumsOf (fields : List Fieldtypename) (vals : List FieldValue) :
    List (Option Datum) :=
  (fields.zip vals).map fun p =>
    if p.2.isnull then none else some (datumOf p.1.type p.2)

/-- Fields of these types, as many as can be counted, whose names have no zero
in them, and rows with a value for each of them. -/
structure Selected (results : Results) : Prop where
  types : ∀ field ∈ results.selectFields, (pgType field.type).isSome
  names : ∀ field ∈ results.selectFields, 0 ∉ field.name
  count : results.selectFields.length < 2 ^ 15
  rows : ∀ vals ∈ results.selectResults,
    vals.length = results.selectFields.length

/-- The length of a message is a number of four bytes with a sign. -/
def LengthFits (m : BackendMessage) : Prop := m.body.length + 4 < 2 ^ 31

end Infinisql.Spec.Client
