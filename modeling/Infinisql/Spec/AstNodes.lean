import Infinisql.Ref.AstNodes

/-!
# What the linked trees are to mean

A `Tree` is what the cells of an expression are taken to be: operands, and
operators with one child or two, each with the address of its cell. `Holds`
says that a heap has the cells of a tree, linked as the constructors and the
parser link them: children, parents, and the pointer of a unary operator to
itself.

On that three things can be said. A copy is good if it is a tree of the same
shape and contents, in cells of its own, every inner parent link in the copy.
Field names are resolved if every identifier has become the id of its field
and no other cell has changed. And arithmetic is exact if each expression over
integers comes to its value, or, where a quotient has no divisor or a result
does not fit, to an error.
-/

namespace Infinisql.Asts

open Infinisql.Ref Infinisql.Lib

/-! ## Trees -/

inductive Tree
  | operand (this : ℕ) (value : Bytes)
  | unary (this : ℕ) (op : Operatortype) (right : Tree)
  | binary (this : ℕ) (op : Operatortype) (left right : Tree)

namespace Tree

def root : Tree → ℕ
  | operand this _ => this
  | unary this _ _ => this
  | binary this _ _ _ => this

/-- The addresses of all cells. -/
def addresses : Tree → List ℕ
  | operand this _ => [this]
  | unary this _ right => this :: right.addresses
  | binary this _ left right => this :: (left.addresses ++ right.addresses)

/-- Each operator has the number of children that is its own. -/
def Arity : Tree → Prop
  | operand _ _ => True
  | unary _ op right => op.isUnary = true ∧ right.Arity
  | binary _ op left right =>
      op.isUnary = false ∧ left.Arity ∧ right.Arity

/-- The cells, below a parent. -/
def cells (parent : Option ℕ) : Tree → List (ℕ × Node)
  | operand this value => [(this, Node.ofOperand parent value)]
  | unary this op right =>
      (this, { Node.operator this parent op with
        rightchild := some right.root }) :: right.cells (some this)
  | binary this op left right =>
      (this, { Node.operator this parent op with
        leftchild := some left.root
        rightchild := some right.root }) ::
        (left.cells (some this) ++ right.cells (some this))

/-- The same operators and operands in the same places. -/
def SameAs : Tree → Tree → Prop
  | operand _ value, operand _ value' => value = value'
  | unary _ op right, unary _ op' right' => op = op' ∧ right.SameAs right'
  | binary _ op left right, binary _ op' left' right' =>
      op = op' ∧ left.SameAs left' ∧ right.SameAs right'
  | _, _ => False

end Tree

/-- The heap has the cells of the tree, which is below that parent. -/
def Holds (h : Heap Node) (parent : Option ℕ) (t : Tree) : Prop :=
  ∀ c ∈ t.cells parent, h.get c.1 = some c.2

/-- A query tree: each operator with its operands, each node with a cell of
its own. -/
structure Built (h : Heap Node) (parent : Option ℕ) (t : Tree) : Prop where
  holds : Holds h parent t
  arity : t.Arity
  apart : t.addresses.Nodup

/-! ## Copies -/

/-- Copying comes to an end, with a tree like the original below some parent,
none of whose cells is the original's. -/
def Copied (h : Heap Node) (t : Tree) : Prop :=
  ∃ fuel h' parent t', copy fuel h t.root = some h' ∧ t'.root = h.next ∧
    Built h' parent t' ∧ t'.SameAs t ∧ ∀ a ∈ t'.addresses, a ∉ t.addresses

/-! ## Names -/

namespace Tree

/-- The identifiers, with the addresses of their cells. -/
def identifiers : Tree → List (ℕ × Bytes)
  | operand this value =>
      if operandType value = operandIdentifier then [(this, value.drop 1)]
      else []
  | unary _ _ right => right.identifiers
  | binary _ _ left right => left.identifiers ++ right.identifiers

end Tree

/-- The name of a field of the table. -/
def IsField (names : FieldNames) (tableid : Int) (name : Bytes) : Prop :=
  ∃ ref fid, names tableid = some ref ∧ ref name = some fid

/-- Each identifier has become the id of its field, and no other cell has
changed. -/
structure Resolved (names : FieldNames) (tableid : Int) (t : Tree)
    (h h' : Heap Node) : Prop where
  identifier : ∀ i ∈ t.identifiers, ∃ ref fid n, names tableid = some ref ∧
    ref i.2 = some fid ∧ h.get i.1 = some n ∧
    h'.get i.1 = some (n.setOperand (fieldidOperand fid))
  other : ∀ a, a ∉ t.identifiers.map Prod.fst → h'.get a = h.get a

/-! ## Arithmetic -/

inductive Arith
  | addition
  | subtraction
  | multiplication
  | division
  deriving DecidableEq

/-- Expressions over `int64_t` literals. -/
inductive Expr
  | literal (v : BitVec 64)
  | negation (right : Expr)
  | binary (op : Arith) (left right : Expr)

namespace Arith

def operatortype : Arith → Operatortype
  | addition => .addition
  | subtraction => .subtraction
  | multiplication => .multiplication
  | division => .division

def assignop : Arith → Assignop
  | addition => .addition
  | subtraction => .subtraction
  | multiplication => .multiplication
  | division => .division

/-- On the integers; a quotient is cut off, and has none by zero. -/
def exact (a b : ℤ) : Arith → Option ℤ
  | addition => some (a + b)
  | subtraction => some (a - b)
  | multiplication => some (a * b)
  | division => if b = 0 then none else some (a.tdiv b)

end Arith

/-- A result that an `int64_t` can have. -/
def fits (z : ℤ) : Option ℤ :=
  if -2 ^ 63 ≤ z ∧ z < 2 ^ 63 then some z else none

namespace Expr

/-- The value, if every quotient has a divisor and every result fits. -/
def exact : Expr → Option ℤ
  | literal v => some v.toInt
  | negation right => right.exact.bind fun b => fits (-b)
  | binary op left right =>
      left.exact.bind fun a => right.exact.bind fun b =>
        (op.exact a b).bind fits

/-- The linked tree is the expression. -/
def Linked : Expr → Tree → Prop
  | literal v, .operand _ value => value = integerOperand v
  | negation right, .unary _ op r => op = .negation ∧ right.Linked r
  | binary op left right, .binary _ op' l r =>
      op' = op.operatortype ∧ left.Linked l ∧ right.Linked r
  | _, _ => False

/-- The tree to the right of an assignment is the expression. -/
def Assigned : Expr → Ast → Prop
  | literal v, .operand value => value = integerOperand v
  | negation right, .negation _ r => right.Assigned r
  | binary op left right, .binary op' _ l r =>
      op' = op.assignop ∧ left.Assigned l ∧ right.Assigned r
  | _, _ => False

end Expr

/-- In the course of the search a call of `evaluate` returns false without
naming a node to evaluate first. -/
def Reports (s : Surroundings) : ℕ → Heap Node → ℕ → Option ℕ → Prop
  | 0, _, _, _ => False
  | fuel + 1, h, astNode, nextAstNode =>
      match evaluate s h astNode with
      | none => False
      | some (h, out) =>
          (out.result = false ∧ out.nextAstNode = none) ∨
          match out.nextAstNode.getD nextAstNode with
          | none => False
          | some next => Reports s fuel h next (some next)

/-- Evaluated node by node, the expression comes to its value, or an error is
reported. -/
def EvaluatesExactly (e : Expr) : Prop :=
  ∀ s h t, Built h none t → e.Linked t →
    match e.exact with
    | some z => ∃ fuel h' n, searchExpression s fuel h t.root =
          some (.finished h') ∧ h'.get t.root = some n ∧
        n.isoperator = false ∧ n.operand = integerOperand (BitVec.ofInt 64 z)
    | none => ∃ fuel, Reports s fuel h t.root none

/-- Evaluated as an assignment, it comes to its value, or it is left an
operator. -/
def AssignsExactly (e : Expr) : Prop :=
  ∀ ld fields fieldValues parameters t, e.Assigned t →
    match e.exact with
    | some z => Ast.evaluateAssignment ld fields fieldValues parameters t =
        some (.operand (integerOperand (BitVec.ofInt 64 z)))
    | none => ∃ t', Ast.evaluateAssignment ld fields fieldValues parameters t =
        some t' ∧ ∀ value, t' ≠ .operand value

end Infinisql.Asts
