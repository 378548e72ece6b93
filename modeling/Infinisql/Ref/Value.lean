import Mathlib.Data.List.DropRight
import Infinisql.Ref.Defs

/-!
# Field values

`fieldValue_s` is a union of the fixed-size types, a string, and a null flag.
The union stays a union: sixteen bytes, here the bits of the little-endian
number they spell. The code that builds commit items compares two values
through the `floating` member whatever the field's type, so what that member
reads when another was written is part of the behaviour.

`floating` is an x87 extended double. Its finite values are the multiples of
`2 ^ -16445`, and the model counts those units, so a value is an integer and
the comparison of two values is the comparison of two integers. Infinities
come out beyond every finite value. A NaN does not compare as it should.

`Key` is what an index is keyed by, one constructor for each of the six key
types. Strings are trimmed by the callers, not by the maps.
-/

namespace Infinisql.Ref

/-- `fieldtype_e`. -/
inductive Fieldtype
  | nofieldtype
  | int
  | uint
  | bool
  | float
  | char
  | charx
  | varchar
  deriving DecidableEq, Repr

/-- `fieldInput_s`: the sixteen bytes of the union. -/
abbrev FieldInput := BitVec 128

namespace FieldInput

def integer (v : FieldInput) : Int := (v.setWidth 64).toInt

def uinteger (v : FieldInput) : Nat := (v.setWidth 64).toNat

def boolean (v : FieldInput) : Bool := v.setWidth 8 != 0#8

def character (v : FieldInput) : BitVec 8 := v.setWidth 8

/-- The extended double in the low ten bytes, in units of `2 ^ -16445`: a
sign bit, fifteen bits of exponent, and a significand whose top bit is
explicit. Exponent 0 has the scale of exponent 1. -/
def floating (v : FieldInput) : Int :=
  let significand : Nat := (v.extractLsb' 0 64).toNat
  let exponent : Nat := (v.extractLsb' 64 15).toNat
  let magnitude : Nat := significand * 2 ^ (max exponent 1 - 1)
  if v.getLsbD 79 then -magnitude else magnitude

/-- A write to a member leaves the bytes beyond it alone, and the values here
start out zeroed. -/
def ofBytes (bytes : Bytes) : FieldInput :=
  bytes.foldr (fun b v => (v <<< 8) ||| BitVec.ofNat 128 b.toNat) 0#128

end FieldInput

/-- `fieldValue_s`, with what value-initialisation gives as defaults. -/
structure FieldValue where
  value : FieldInput := 0#128
  str : Bytes := []
  isnull : Bool := false
  deriving DecidableEq

/-! ## Trailing space -/

/-- The byte `' '`. -/
def space : UInt8 := 32

/-- `trimspace`: erase after the last byte that is not a space; a string of
spaces is cleared. -/
def trimspace (input : Bytes) : Bytes := input.rdropWhile (· == space)

@[simp] theorem trimspace_trimspace (s : Bytes) :
    trimspace (trimspace s) = trimspace s :=
  List.rdropWhile_idempotent _ _

@[simp] theorem trimspace_nil : trimspace [] = [] := rfl

/-- The value with its string trimmed, as `trimspace(val->str)` leaves it. -/
def FieldValue.trim (v : FieldValue) : FieldValue :=
  { v with str := trimspace v.str }

@[simp] theorem FieldValue.trim_fields (v : FieldValue) :
    v.trim.value = v.value ∧ v.trim.isnull = v.isnull ∧
    v.trim.str = trimspace v.str := ⟨rfl, rfl, rfl⟩

/-! ## Keys -/

inductive Key
  | integer (v : Int)
  | uinteger (v : Nat)
  | boolean (v : Bool)
  | floating (v : Int)
  | character (v : BitVec 8)
  | str (v : Bytes)
  deriving DecidableEq

/-- The member of the value that an index on a field of this type takes. -/
def FieldValue.key (v : FieldValue) : Fieldtype → Option Key
  | .int => some (.integer v.value.integer)
  | .uint => some (.uinteger v.value.uinteger)
  | .bool => some (.boolean v.value.boolean)
  | .float => some (.floating v.value.floating)
  | .char => some (.character v.value.character)
  | .charx | .varchar => some (.str v.str)
  | .nofieldtype => none

/-- A key with its trailing space gone. -/
def Key.trim : Key → Key
  | .str v => .str (trimspace v)
  | k => k

@[simp] theorem Key.trim_trim (k : Key) : k.trim.trim = k.trim := by
  cases k <;> simp [Key.trim]

end Infinisql.Ref
