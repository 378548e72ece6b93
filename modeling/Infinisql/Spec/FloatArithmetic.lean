import Mathlib.Algebra.Order.Field.Rat
import Infinisql.Spec.Evaluators

/-!
# Arithmetic on integers and floats

An expression over integers and floats has an exact value, if no divisor in it
is zero: an integer where all literals are integers, with quotients cut off, and
a rational number where one of them is a float. The operand that it is
evaluated to is to have the tag of the one or the other, the length that goes
with the tag, and that value.

Floats are taken for the rational numbers that they are, and their operations
for exact: of the processor it is assumed that the whole part of a result is
what it converts the result to, where that is an integer of 64 bits.

Every call of `evaluate` ends with an operand, and so the same is asked of each
expression within an expression. `Tame` is what an operator must be for that.
-/

namespace Infinisql.Asts

open Infinisql.Ref Infinisql.Lib

/-! ## Numbers -/

/-- Infinities and the like have all ones for an exponent. -/
def Finite (v : FieldInput) : Prop := v.extractLsb' 64 15 ≠ BitVec.allOnes 15

instance (v : FieldInput) : Decidable (Finite v) :=
  inferInstanceAs (Decidable (_ ≠ _))

/-- The least positive float is two to the power of minus this. -/
def leastExponent : ℕ := 16445

/-- The number that the bytes of a float are. -/
def worth (v : FieldInput) : ℚ := (v.floating : ℚ) / 2 ^ leastExponent

/-- Towards zero. -/
def wholePart (q : ℚ) : ℤ := q.num.tdiv q.den

/-- The integer is the whole part, where that is one of 64 bits. -/
def Converted (v : BitVec 64) (q : ℚ) : Prop :=
  -2 ^ 63 ≤ wholePart q → wholePart q < 2 ^ 63 → v.toInt = wholePart q

/-- What the processor is assumed to do with the floats of this machine. -/
structure ExactFloats (ld : LongDouble) : Prop where
  add : ∀ a b, Finite a → Finite b →
    Converted (ld.toInteger (ld.add a b)) (worth a + worth b)
  sub : ∀ a b, Finite a → Finite b →
    Converted (ld.toInteger (ld.sub a b)) (worth a - worth b)
  mul : ∀ a b, Finite a → Finite b →
    Converted (ld.toInteger (ld.mul a b)) (worth a * worth b)
  div : ∀ a b, Finite a → Finite b → worth b ≠ 0 →
    Converted (ld.toInteger (ld.div a b)) (worth a / worth b)

/-! ## Exact values -/

inductive Number
  | integer (z : ℤ)
  | float (q : ℚ)

namespace Number

def toRat : Number → ℚ
  | integer z => z
  | float q => q

/-- On integers; there is no quotient by zero. -/
def integers (a b : ℤ) : Assignop → Option ℤ
  | .concatenation => none
  | .addition => some (a + b)
  | .subtraction => some (a - b)
  | .multiplication => some (a * b)
  | .division => if b = 0 then none else some (a.tdiv b)

/-- On rational numbers. -/
def rationals (a b : ℚ) : Assignop → Option ℚ
  | .concatenation => none
  | .addition => some (a + b)
  | .subtraction => some (a - b)
  | .multiplication => some (a * b)
  | .division => if b = 0 then none else some (a / b)

/-- An integer with a float is a float. -/
def apply (op : Assignop) : Number → Number → Option Number
  | integer a, integer b => (integers a b op).map integer
  | a, b => (rationals a.toRat b.toRat op).map float

def negate : Number → Number
  | integer z => integer (-z)
  | float q => float (-q)

end Number

namespace Scalar

/-- The exact value, if all literals are numbers and no divisor is zero. -/
def exact : Scalar → Option Number
  | literal (.integer v) => some (.integer v.toInt)
  | literal (.float v) => if Finite v then some (.float (worth v)) else none
  | literal (.string _) => none
  | negation right => right.exact.map Number.negate
  | binary op left right =>
      left.exact.bind fun a => right.exact.bind fun b => Number.apply op a b

/-- Some literal is a float. -/
def HasFloat : Scalar → Prop
  | literal l => l.kind = .float
  | negation right => right.HasFloat
  | binary _ left right => left.HasFloat ∨ right.HasFloat

/-- The expressions in it, itself among them. -/
def parts : Scalar → List Scalar
  | literal l => [literal l]
  | negation right => negation right :: right.parts
  | binary op left right => binary op left right :: (left.parts ++ right.parts)

end Scalar

/-! ## Operands -/

/-- Its length is the one that goes with the tag. -/
def Sized (operand : Bytes) : Prop :=
  operandType operand = operandInteger ∧ operand.length = 9 ∨
    operandType operand = operandFloat ∧ operand.length = 17

/-- The number that the operand is. -/
def operandWorth (operand : Bytes) : ℚ :=
  if operandType operand = operandFloat then worth (floatOf operand)
  else (integerOf operand).toInt

/-- `evaluate` ends with an operand of the right tag, its length and the exact
value. -/
def EvaluatesTyped (e : Scalar) : Prop :=
  ∀ x, e.exact = some x → ∀ s h t, ExactFloats s.ld → Built h none t →
    e.Linked t → ∃ operand, SearchedTo s h t.root operand ∧
      (operandType operand = operandFloat ↔ e.HasFloat) ∧ Sized operand ∧
      operandWorth operand = x.toRat

/-! ## The condition -/

/-- Among integers the result is one of 64 bits; otherwise both operands are
floats, and the result is zero. -/
def Scalar.Tame : Scalar → Prop
  | literal _ => True
  | negation right =>
      match right.exact with
      | some (.integer z) => -z < 2 ^ 63
      | some (.float q) => q = 0
      | none => True
  | binary op left right =>
      match left.exact, right.exact with
      | some (.integer a), some (.integer b) =>
          ∀ z, Number.integers a b op = some z → -2 ^ 63 ≤ z ∧ z < 2 ^ 63
      | some (.float a), some (.float b) =>
          ∀ q, Number.rationals a b op = some q → q = 0
      | some a, some b => Number.apply op a b = none
      | _, _ => True

end Infinisql.Asts
