import Infinisql.Lib.Heap
import Infinisql.Ref.Update

/-!
# Expression trees as the program links them

`class Ast` of `Asts.h`, node by node: a tree is made of cells that point to
their children and back to their parent. A unary operator has its operand to
the right, and to the left it points to itself, so that the parser takes the
left side for filled already.

Four routines are here that follow these links: `cp`, which is what copying a
compiled statement comes to for each of its trees; `resolveFieldNames`, which
walks a tree without a stack; and `evaluate` with the loop of
`searchExpression` that drives it from node to node. The last two run in a
loop, so they take fuel, and without enough of it they have no result; and so
does `cp`, which calls itself.

A cell that is not there when it is asked for, and a division that the
processor traps, end the program; in both cases a routine has no result either,
which `searchExpression` and the walk tell from lack of fuel. What `evaluate`
does for the operators that yield rows is a parameter, as are scalar
subqueries.
-/

namespace Infinisql.Asts

open Infinisql.Ref Infinisql.Lib

/-- `operatortypes_e`. -/
inductive Operatortype
  | concatenation
  | addition
  | subtraction
  | multiplication
  | division
  | negation
  | and
  | or
  | not
  | true
  | false
  | unknown
  | eq
  | ne
  | lt
  | gt
  | lte
  | gte
  | between
  | isnull
  | in
  | like
  | exists
  | unique
  | betweenand
  | notbetween
  | isnotnull
  | notin
  | notlike
  | regex
  | null
  deriving DecidableEq

/-- The operators with one operand. -/
def Operatortype.isUnary : Operatortype → Bool
  | .negation | .not | .true | .false | .unknown | .isnull | .in | .exists
  | .unique | .isnotnull | .notin => Bool.true
  | _ => Bool.false

/-- A cell. An operand has no operator type: the constructor leaves it
unset. -/
structure Node where
  parent : Option ℕ
  rightchild : Option ℕ
  leftchild : Option ℕ
  isoperator : Bool
  operatortype : Option Operatortype
  operand : Bytes
  deriving DecidableEq

namespace Node

/-- `Ast(parent, operatortype)`, at the address it is given. -/
def operator (this : ℕ) (parent : Option ℕ) (op : Operatortype) : Node where
  parent := parent
  rightchild := none
  leftchild := if op.isUnary then some this else none
  isoperator := true
  operatortype := some op
  operand := []

/-- `Ast(parent, operand)`. -/
def ofOperand (parent : Option ℕ) (operand : Bytes) : Node where
  parent := parent
  rightchild := none
  leftchild := none
  isoperator := false
  operatortype := none
  operand := operand

/-- `Ast()`, which sets nothing. -/
def blank : Node := ofOperand none []

def setOperand (operand : Bytes) (n : Node) : Node :=
  { n with operand := operand }

end Node

/-! ## Copying -/

/-- The members that are no children, the parent among them. -/
def copyMembers (h : Heap Node) (this : ℕ) (o : Node) : Heap Node :=
  h.modify this fun n =>
    { n with
      parent := o.parent
      isoperator := o.isoperator
      operatortype := o.operatortype
      operand := o.operand }

/-- `leftchild = new class Ast`, and the pointer to it. -/
def newLeft (h : Heap Node) (this : ℕ) : Heap Node :=
  (h.alloc Node.blank).modify this
    fun n => { n with leftchild := some h.next }

def newRight (h : Heap Node) (this : ℕ) : Heap Node :=
  (h.alloc Node.blank).modify this
    fun n => { n with rightchild := some h.next }

/-- `this->cp(*orig)`. -/
def cp : ℕ → Heap Node → ℕ → ℕ → Option (Heap Node)
  | 0, _, _, _ => none
  | fuel + 1, h, this, orig =>
      match h.get orig with
      | none => none
      | some o =>
          let h := copyMembers h this o
          let left :=
            match o.leftchild with
            | some l => cp fuel (newLeft h this) h.next l
            | none => some (h.modify this fun n => { n with leftchild := none })
          match left with
          | none => none
          | some h =>
              match o.rightchild with
              | some r => cp fuel (newRight h this) h.next r
              | none =>
                  some (h.modify this fun n => { n with rightchild := none })

/-- `new class Ast`, then `*copy = *orig`: what `cpquery` does with each tree
of a query. -/
def copy (fuel : ℕ) (h : Heap Node) (orig : ℕ) : Option (Heap Node) :=
  cp fuel (h.alloc Node.blank) h.next orig

/-! ## Resolving field names -/

/-- `Statement::direction_e`. -/
inductive Direction
  | fromAbove
  | fromLeft
  | fromRight
  deriving DecidableEq

def operandIdentifier : UInt8 := 98

/-- `fieldNameToId`, and `fields` behind it: an id is the position of a
field. -/
abbrev FieldNames := Int → Option (Bytes → Option ℕ)

def getfieldid (fieldNameToId : FieldNames) (tableid : Int)
    (fieldName : Bytes) : Int :=
  match fieldNameToId tableid with
  | none => -1
  | some ref =>
      match ref fieldName with
      | none => -1
      | some fid => fid

/-- The operand a field name becomes. -/
def fieldidOperand (fid : Int) : Bytes :=
  operandFieldid :: FieldInput.toBytes ((BitVec.ofInt 64 fid).setWidth 128) 8

/-- Where a round of the walk leads: on, or to its end. -/
inductive Walked
  | on (h : Heap Node) (myPosition : ℕ) (direction : Direction)
  | ended (h : Heap Node) (result : Bool)

/-- The `switch` of a round. -/
def walkSwitch (h : Heap Node) (myPosition : ℕ) (n : Node) :
    Direction → Option Walked
  | .fromAbove =>
      match n.leftchild with
      | none => some (.on h myPosition .fromLeft)
      | some l =>
          if l = myPosition then some (.on h myPosition .fromLeft)
          else some (.on h l .fromAbove)
  | .fromLeft =>
      match n.rightchild with
      | none => some (.on h myPosition .fromRight)
      | some r => some (.on h r .fromAbove)
  | .fromRight =>
      match n.parent with
      | none => some (.ended h true)
      | some p =>
          match h.get p with
          | none => none
          | some pn =>
              if pn.leftchild = some myPosition then some (.on h p .fromLeft)
              else some (.on h p .fromRight)

/-- A round of the walk. -/
def walkStep (names : FieldNames) (tableid : Int) (h : Heap Node)
    (myPosition : ℕ) (direction : Direction) : Option Walked :=
  match h.get myPosition with
  | none => none
  | some n =>
      if n.isoperator = false ∧ operandType n.operand = operandIdentifier then
        let fid := getfieldid names tableid (n.operand.drop 1)
        if fid = -1 then some (.ended h false)
        else
          walkSwitch (h.modify myPosition (Node.setOperand (fieldidOperand fid)))
            myPosition n .fromRight
      else walkSwitch h myPosition n direction

/-- How the walk has gone: it returns, or it follows a pointer to nowhere. -/
inductive WalkResult
  | returned (h : Heap Node) (result : Bool)
  | trapped

/-- From one round to the next. -/
def proceed (next : Heap Node → ℕ → Direction → Option WalkResult) :
    Option Walked → Option WalkResult
  | none => some .trapped
  | some (.ended h result) => some (.returned h result)
  | some (.on h myPosition direction) => next h myPosition direction

def walk (names : FieldNames) (tableid : Int) :
    ℕ → Heap Node → ℕ → Direction → Option WalkResult
  | 0, _, _, _ => none
  | fuel + 1, h, myPosition, direction =>
      proceed (walk names tableid fuel)
        (walkStep names tableid h myPosition direction)

def resolveFieldNames (names : FieldNames) (tableid : Int) (fuel : ℕ)
    (h : Heap Node) (myPosition : ℕ) : Option WalkResult :=
  walk names tableid fuel h myPosition .fromAbove

/-! ## Evaluating -/

def operandSubquery : UInt8 := 100

/-- What a call of `evaluate` gives back: whether the node has been evaluated,
and what it assigns to `nextAstNode`, if it does. -/
structure Outcome where
  result : Bool
  nextAstNode : Option (Option ℕ)

/-- An operator that cannot be applied to its operands. -/
def Outcome.mismatch : Outcome := ⟨false, none⟩

/-- What an evaluation is given from outside: the parameters of the statement,
the arithmetic of `long double`, and the operators that look for rows. -/
structure Surroundings where
  parameters : List Bytes
  ld : LongDouble
  subqueryScalar : Heap Node → ℕ → Option (Heap Node)
  predicate : Operatortype → Heap Node → ℕ → Option (Heap Node × Outcome)

/-- An `OPERAND_PARAMETER` is replaced. -/
def resolveParameter (parameters : List Bytes) (h : Heap Node) (a : ℕ)
    (operand : Bytes) : Option (Heap Node) :=
  if operandType operand = operandParameter then
    (parameters[(integerOf operand).toNat]?).map fun s =>
      h.modify a (Node.setOperand s)
  else some h

/-- A child is looked at: an operator is to be evaluated first. -/
def prepare (s : Surroundings) (h : Heap Node) (this : ℕ) (child : Option ℕ) :
    Option (Heap Node × Option ℕ) :=
  match child with
  | none => none
  | some c =>
      match h.get c with
      | none => none
      | some n =>
          if n.isoperator then some (h, some c)
          else if operandType n.operand = operandSubquery then
            (s.subqueryScalar h this).map fun h => (h, none)
          else
            (resolveParameter s.parameters h c n.operand).map fun h => (h, none)

/-- The operator becomes an operand, and its children are deleted. -/
def becomeOperand (h : Heap Node) (this l r : ℕ) (operand : Bytes) :
    Heap Node :=
  ((h.modify this fun n =>
    { n with
      operand := operand
      isoperator := false
      leftchild := none
      rightchild := none }).free l).free r

/-- The `switch` on the left operand's type. -/
def calculate (ld : LongDouble) (op : Assignop) (h : Heap Node) (this l r : ℕ)
    (n : Node) (left right : Bytes) : Option (Heap Node × Outcome) :=
  if operandType left = operandInteger then
    if operandType right = operandInteger then
      (op.integer (integerOf left) (integerOf right)).map fun val =>
        (becomeOperand h this l r (integerOperand val), ⟨true, some n.parent⟩)
    else some (h, .mismatch)
  else if operandType left = operandFloat then
    if operandType right = operandFloat then
      (op.floating ld (floatOf left) (floatOf right)).map fun val =>
        (becomeOperand h this l r (Ast.floatResult ld n.operand val),
          ⟨true, some n.parent⟩)
    else some (h, .mismatch)
  else some (h, .mismatch)

/-- An arithmetic operator with its operands. -/
def arithmetic (ld : LongDouble) (op : Assignop) (h : Heap Node) (this : ℕ) :
    Option (Heap Node × Outcome) :=
  match h.get this with
  | none => none
  | some n =>
      match n.leftchild, n.rightchild with
      | some l, some r =>
          match h.get l, h.get r with
          | some ln, some rn =>
              if operandType ln.operand = operandFloat ∨
                  operandType rn.operand = operandFloat then
                let left := toFloatOperand ln.operand
                let right := toFloatOperand rn.operand
                calculate ld op ((h.modify l (Node.setOperand left)).modify r
                  (Node.setOperand right)) this l r n left right
              else calculate ld op h this l r n ln.operand rn.operand
          | _, _ => none
      | _, _ => none

/-- `OPERATOR_CONCATENATION`. With an operand that is no string the call
returns true, and leaves `nextAstNode` alone. -/
def concatenation (h : Heap Node) (this : ℕ) : Option (Heap Node × Outcome) :=
  match h.get this with
  | none => none
  | some n =>
      match n.leftchild, n.rightchild with
      | some l, some r =>
          match h.get l, h.get r with
          | some ln, some rn =>
              if operandType ln.operand = operandString ∧
                  operandType rn.operand = operandString then
                some (becomeOperand h this l r (operandString ::
                  (ln.operand.drop 1 ++ rn.operand.drop 1)),
                  ⟨true, some n.parent⟩)
              else some (h, ⟨true, none⟩)
          | _, _ => none
      | _, _ => none

/-- `OPERATOR_NEGATION`. The pointer to itself stays. -/
def negate (ld : LongDouble) (h : Heap Node) (this : ℕ) :
    Option (Heap Node × Outcome) :=
  match h.get this with
  | none => none
  | some n =>
      match n.rightchild with
      | none => none
      | some r =>
          match h.get r with
          | none => none
          | some rn =>
              let become (operand : Bytes) : Heap Node :=
                (h.modify this fun n =>
                  { n with
                    operand := operand
                    isoperator := false
                    rightchild := none }).free r
              if operandType rn.operand = operandInteger then
                some (become (integerOperand (0 - integerOf rn.operand)),
                  ⟨true, some n.parent⟩)
              else if operandType rn.operand = operandFloat then
                some (become (Ast.floatResult ld n.operand
                  (ld.sub 0#128 (floatOf rn.operand))), ⟨true, some n.parent⟩)
              else some (h, .mismatch)

/-- The `switch` on the operator. -/
def execute (s : Surroundings) (op : Operatortype) (h : Heap Node) (this : ℕ) :
    Option (Heap Node × Outcome) :=
  match op with
  | .concatenation => concatenation h this
  | .addition => arithmetic s.ld .addition h this
  | .subtraction => arithmetic s.ld .subtraction h this
  | .multiplication => arithmetic s.ld .multiplication h this
  | .division => arithmetic s.ld .division h this
  | .negation => negate s.ld h this
  | op => s.predicate op h this

/-- `this->evaluate(&nextAstNode, statementPtr)`. -/
def evaluate (s : Surroundings) (h : Heap Node) (this : ℕ) :
    Option (Heap Node × Outcome) :=
  match h.get this with
  | none => none
  | some n =>
      if n.isoperator = false then
        (resolveParameter s.parameters h this n.operand).map fun h =>
          (h, ⟨true, some n.parent⟩)
      else
        match n.operatortype with
        | none => none
        | some op =>
            match (if op.isUnary then some (h, none)
                else prepare s h this n.leftchild) with
            | none => none
            | some (h, some l) => some (h, ⟨false, some (some l)⟩)
            | some (h, none) =>
                match prepare s h this n.rightchild with
                | none => none
                | some (h, some r) => some (h, ⟨false, some (some r)⟩)
                | some (h, none) => execute s op h this

/-- How the loop of `searchExpression` ends: the root has its value, the
statement waits for an answer, or the program is stopped. -/
inductive Searched
  | finished (h : Heap Node)
  | backgrounded (h : Heap Node)
  | trapped

/-- The loop of `searchExpression`. The node that has been evaluated and the
node that is to be evaluated first are taken from the same variable, which a
call may leave as it was. -/
def searchLoop (s : Surroundings) :
    ℕ → Heap Node → ℕ → Option ℕ → Option Searched
  | 0, _, _, _ => none
  | fuel + 1, h, astNode, nextAstNode =>
      match evaluate s h astNode with
      | none => some .trapped
      | some (h, out) =>
          match out.nextAstNode.getD nextAstNode with
          | none =>
              if out.result then some (.finished h)
              else some (.backgrounded h)
          | some next => searchLoop s fuel h next (some next)

def searchExpression (s : Surroundings) (fuel : ℕ) (h : Heap Node)
    (astNode : ℕ) : Option Searched :=
  searchLoop s fuel h astNode none

end Infinisql.Asts
