import Infinisql.Spec.AstNodes

/-!
# Two evaluators of one expression

Values of an INSERT and operands of predicates are searched node by node,
assignments of an UPDATE are evaluated by a recursion of their own, and each of
the two has its own copy of every operator. An expression over literals is to
leave the same operand at the root either way, and nothing below it.

When that is so is a matter of two things. `kind` says that each operator is
given operands that it takes as they are: two integers or two floats, and two
strings for a concatenation. `Divides` says that the processor traps no integer
division, with the numbers as the machine has them, which are `wrapped`.
-/

namespace Infinisql.Asts

open Infinisql.Ref Infinisql.Lib

/-! ## Expressions over literals -/

inductive Literal
  | integer (v : BitVec 64)
  | float (v : FieldInput)
  | string (s : Bytes)
  deriving DecidableEq

/-- The operand that the parser makes of it. -/
def Literal.operand : Literal → Bytes
  | integer v => integerOperand v
  | float v => operandFloat :: v.toBytes 16
  | string s => operandString :: s

inductive Scalar
  | literal (l : Literal)
  | negation (right : Scalar)
  | binary (op : Assignop) (left right : Scalar)
  deriving DecidableEq

namespace Scalar

/-- The number of the operator. -/
def operatortype : Assignop → Operatortype
  | .concatenation => .concatenation
  | .addition => .addition
  | .subtraction => .subtraction
  | .multiplication => .multiplication
  | .division => .division

/-- The linked tree is the expression. -/
def Linked : Scalar → Tree → Prop
  | literal l, .operand _ value => value = l.operand
  | negation right, .unary _ op r => op = .negation ∧ right.Linked r
  | binary op left right, .binary _ op' l r =>
      op' = operatortype op ∧ left.Linked l ∧ right.Linked r
  | _, _ => False

/-- The tree to the right of an assignment is the expression. An operator has
no operand of its own yet. -/
def Assigned : Scalar → Ast → Prop
  | literal l, .operand value => value = l.operand
  | negation right, .negation s r => s = [] ∧ right.Assigned r
  | binary op left right, .binary op' s l r =>
      op' = op ∧ s = [] ∧ left.Assigned l ∧ right.Assigned r
  | _, _ => False

end Scalar

/-! ## Agreement -/

/-- It is an operand, and has no children. A pointer to itself is none. -/
structure Childless (this : ℕ) (n : Node) : Prop where
  isoperator : n.isoperator = false
  leftchild : n.leftchild = none ∨ n.leftchild = some this
  rightchild : n.rightchild = none

/-- The search returns with that operand at the root, and nothing below. -/
def SearchedTo (s : Surroundings) (h : Heap Node) (root : ℕ)
    (operand : Bytes) : Prop :=
  ∃ fuel h' n, searchExpression s fuel h root = some (.finished h') ∧
    h'.get root = some n ∧ Childless root n ∧ n.operand = operand

/-- Both come to an end, with the same operand. -/
def EvaluatorsAgree (e : Scalar) : Prop :=
  ∀ s h t fields fieldValues parameters ast, Built h none t → e.Linked t →
    e.Assigned ast → ∃ operand, SearchedTo s h t.root operand ∧
      Ast.evaluateAssignment s.ld fields fieldValues parameters ast =
        some (.operand operand)

/-! ## The condition -/

inductive Kind
  | integer
  | float
  | string
  deriving DecidableEq

def Literal.kind : Literal → Kind
  | integer _ => .integer
  | float _ => .float
  | string _ => .string

/-- What an operator makes of operands that it takes. -/
def Kind.apply (a b : Kind) : Assignop → Option Kind
  | .concatenation => if a = string ∧ b = string then some string else none
  | .addition | .subtraction | .multiplication | .division =>
      if a = b ∧ a ≠ string then some a else none

def Kind.negate (a : Kind) : Option Kind := if a = string then none else some a

namespace Scalar

/-- None where an operator is given operands that it does not take. -/
def kind : Scalar → Option Kind
  | literal l => some l.kind
  | negation right => right.kind.bind Kind.negate
  | binary op left right =>
      left.kind.bind fun a => right.kind.bind fun b => a.apply b op

/-- The integer that an expression over integers comes to in 64 bits, unless a
division is trapped. -/
def wrapped : Scalar → Option (BitVec 64)
  | literal (.integer v) => some v
  | literal _ => none
  | negation right => right.wrapped.map fun b => 0 - b
  | binary op left right =>
      left.wrapped.bind fun a => right.wrapped.bind fun b => op.integer a b

/-- The quotient of two integers is an integer of 64 bits. -/
def Quotient (a b : BitVec 64) : Prop :=
  b ≠ 0#64 ∧ ¬ (a = BitVec.intMin 64 ∧ b = BitVec.allOnes 64)

/-- Each quotient of integers is one of 64 bits. -/
def Divides : Scalar → Prop
  | literal _ => True
  | negation right => right.Divides
  | binary op left right => left.Divides ∧ right.Divides ∧
      (op = .division → ∀ a b, left.wrapped = some a →
        right.wrapped = some b → Quotient a b)

/-- No integer is divided by zero. -/
def NonzeroDivisors : Scalar → Prop
  | literal _ => True
  | negation right => right.NonzeroDivisors
  | binary op left right => left.NonzeroDivisors ∧ right.NonzeroDivisors ∧
      (op = .division → right.wrapped ≠ some 0#64)

end Scalar

end Infinisql.Asts
