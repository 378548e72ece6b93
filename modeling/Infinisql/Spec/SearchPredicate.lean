import Infinisql.Lib.Predicate
import Infinisql.Ref.StagedPredicate
import Infinisql.Spec.Assignment

/-!
# What a predicate of a WHERE clause means

A predicate on one field, with its literals, and the operands that the parser
and `OPERATOR_BETWEENAND` make of it. It means a predicate on the keys of the
field, the one an index search answers: strings compare without their trailing
space, a `CHAR` is compared with the first character of a string, and a float
may be compared with an integer. How a pattern matches is a parameter.
-/

namespace Infinisql.Spec

open Infinisql.Ref

namespace Value

/-- The key a literal stands for on a field; `some none` for a null, and
`none` where the types do not fit. -/
def keyOn (f : Field) : Value → Option (Option Key)
  | .null => some none
  | .integer v =>
      match f.type with
      | .int => some (some (.integer v.toInt))
      | .uint => some (some (.uinteger v.toNat))
      | .float => some (some (.floating (FieldInput.ofInt v.toInt).floating))
      | _ => none
  | .float v =>
      if f.type = .float then some (some (.floating v.floating)) else none
  | .boolean v => if f.type = .bool then some (some (.boolean v)) else none
  | .string v =>
      match f.type with
      | .char =>
          some (some (.character (FieldInput.ofBytes (v.take 1)).character))
      | .charx | .varchar => some (some (.str (trimspace v)))
      | _ => none

/-- The operand of a literal. -/
def operand : Value → Bytes
  | .null => [operandNull]
  | .integer v => integerOperand v
  | .float v => operandFloat :: v.toBytes 16
  | .string v => operandString :: v
  | .boolean v => [operandBoolean, if v then 116 else 102]

/-- The operand that `OPERATOR_BETWEENAND` makes of two. -/
def betweenOperand : Value → Value → Option Bytes
  | .integer v, .integer w =>
      some (operandInteger :: FieldInput.toBytes (v.setWidth 128) 8 ++
        FieldInput.toBytes (w.setWidth 128) 8)
  | .float v, .float w =>
      some (operandFloat :: v.toBytes 16 ++ w.toBytes 16)
  | .string v, .string w =>
      some (operandString :: FieldInput.toBytes (BitVec.ofNat 128 v.length) 8
        ++ (v ++ w))
  | _, _ => none

end Value

inductive SearchPredicate
  | compare (c : Lib.Comparison) (v : Value)
  | between (lower upper : Value)
  | notbetween (lower upper : Value)
  | isnull
  | isnotnull
  | isin (vs : List Value)
  | notin (vs : List Value)
  | like (pattern : Bytes)
  | notlike (pattern : Bytes)

namespace SearchPredicate

def operatortype : SearchPredicate → Operatortype
  | .compare .eq _ => .eq
  | .compare .ne _ => .ne
  | .compare .lt _ => .lt
  | .compare .gt _ => .gt
  | .compare .lte _ => .lte
  | .compare .gte _ => .gte
  | .between .. => .between
  | .notbetween .. => .notbetween
  | .isnull => .isnull
  | .isnotnull => .isnotnull
  | .isin _ => .in
  | .notin _ => .notin
  | .like _ => .like
  | .notlike _ => .notlike

def fieldidOperand (n : Nat) : Bytes :=
  operandFieldid :: FieldInput.toBytes (BitVec.ofNat 128 n) 8

/-- The operand to the left: the field, and of a unary operator its own. -/
def leftoperand (n : Nat) (p : SearchPredicate) : Bytes :=
  if Statement.unary p.operatortype then [] else fieldidOperand n

def rightoperand (n : Nat) : SearchPredicate → Option Bytes
  | .compare _ v => some v.operand
  | .between lower upper | .notbetween lower upper =>
      lower.betweenOperand upper
  | .isnull | .isnotnull | .isin _ | .notin _ => some (fieldidOperand n)
  | .like pattern | .notlike pattern => some (operandString :: pattern)

/-- What it means on a field, where the types fit. -/
def meaning (matching : Bytes → Bytes → Bool) (f : Field) :
    SearchPredicate → Option (Lib.Predicate Key)
  | .compare c v => (v.keyOn f).map (.compare c)
  | .between lower upper =>
      match lower.keyOn f, upper.keyOn f with
      | some a, some b => some (.between a b)
      | _, _ => none
  | .notbetween lower upper =>
      match lower.keyOn f, upper.keyOn f with
      | some a, some b => some (.notbetween a b)
      | _, _ => none
  | .isnull => some .isnull
  | .isnotnull => some .isnotnull
  | .isin vs => (vs.mapM (Value.keyOn f)).map .oneOf
  | .notin vs => (vs.mapM (Value.keyOn f)).map .noneOf
  | .like pattern =>
      if f.type = .charx ∨ f.type = .varchar then
        some (.matching fun
          | .str v => matching (trimspace pattern) v
          | _ => false)
      else none
  | .notlike pattern =>
      if f.type = .charx ∨ f.type = .varchar then
        some (.matching fun
          | .str v => !matching (trimspace pattern) v
          | _ => false)
      else none

end SearchPredicate

/-- The key of a field in a row, none for a null. -/
def columnKey (fields : List Field) (n : Nat) (f : Field) (row : Bytes) :
    Option Key :=
  let v := (unmakerow fields row).getD n {}
  if v.isnull then none else (v.key f.type).map Key.trim

/-- The row satisfies the predicate. -/
def Satisfies (fields : List Field) (n : Nat) (f : Field)
    (m : Lib.Predicate Key) (row : Bytes) : Prop :=
  m.holds Key.lt (columnKey fields n f row) = true

end Infinisql.Spec
