import Infinisql.Ref.Larxer

/-!
# The grammar, and what its actions push

The rules of `parser.yy` for the statements that read and write rows, one
constructor for each alternative, and for each rule its actions: `push` is
what they do to the stack while the text that the rule derives is read. An
action runs when its rule is reduced, so after those of its parts.

Rules that only choose have been merged with the rule that they occur in. Two
alternatives are left out: `t.*` for a name, which no field has, and the call
of a stored procedure, which is no query.
-/

namespace Infinisql.Larx

open Infinisql.Ref (Bytes FieldInput operandInteger operandFloat operandNull
  operandString operandParameter operandBoolean)
open Infinisql.Asts (Operatortype operandSubquery operandIdentifier)

/-! ## The rules -/

def operandAggregate : UInt8 := 103

/-- `operand`, except for a subquery. -/
inductive Operand
  | string (s : Bytes)
  | identifier (s : Bytes)
  | parameter (n : BitVec 64)
  | integer (v : BitVec 64)
  | float (v : FieldInput)
  | aggregate (aggregatetype : UInt8) (s : Bytes)
  | null
  | boolean (b : Bool)
  deriving DecidableEq

/-- The five operators of `expression2` with two operands. -/
inductive Binary
  | concatenation
  | addition
  | subtraction
  | multiplication
  | division
  deriving DecidableEq

/-- `comparison_predicate`. -/
inductive Comparison
  | eq
  | ne
  | lt
  | gt
  | lte
  | gte
  deriving DecidableEq

/-- `truthvalue`. -/
inductive Truthvalue
  | true
  | false
  | unknown
  | null
  deriving DecidableEq

/-- `set_quantifier`. -/
inductive Quantifier
  | distinct
  | all
  deriving DecidableEq

/-- `columns`, the list of `identifier` and `aggregate`. -/
inductive Columns
  | asterisk
  | list (columns : List Operand)
  deriving DecidableEq

mutual

/-- `expression2`. -/
inductive Expression
  | operand (o : Operand)
  | subquery (s : Select)
  | binary (op : Binary) (left right : Expression)
  | negation (right : Expression)

/-- `expressionlist`. -/
inductive ExpressionList
  | one (e : Expression)
  | snoc (list : ExpressionList) (e : Expression)

/-- `search_condition2`, with the predicates, and where a predicate has a NOT
of its own, whether it is there. -/
inductive Condition
  | comparison (op : Comparison) (left right : Expression)
  | between (negated : Bool) (e lower upper : Expression)
  | isnull (negated : Bool) (e : Expression)
  | inList (negated : Bool) (e : Expression) (list : ExpressionList)
  | inSubquery (negated : Bool) (e : Expression) (s : Select)
  | like (negated : Bool) (e : Expression) (pattern : Bytes)
  | exists (s : Select)
  | unique (s : Select)
  | truthtest (c : Condition) (value : Truthvalue)
  | not (c : Condition)
  | and (left right : Condition)
  | or (left right : Condition)

/-- `where_clause` and `having_clause`. -/
inductive Clause
  | absent
  | present (c : Condition)

/-- `select_stmt`. -/
inductive Select
  | mk (quantifier : Option Quantifier) (columns : Columns) (table : Bytes)
      (where_clause : Clause) (groupby : List Bytes) (having_clause : Clause)
      (forupdate nolock : Bool) (orderby : List (Bytes × Bool))

end

/-- `stmt`, as far as rows are read or written. -/
inductive Stmt
  | select (s : Select)
  | insert (table : Bytes) (values : ExpressionList)
  | update (table : Bytes) (assignments : List (Bytes × Expression))
      (nonempty : assignments ≠ []) (where_clause : Clause)
  | delete (table : Bytes) (where_clause : Clause)

namespace Select

def quantifier : Select → Option Quantifier
  | mk quantifier _ _ _ _ _ _ _ _ => quantifier

def columns : Select → Columns
  | mk _ columns _ _ _ _ _ _ _ => columns

def table : Select → Bytes
  | mk _ _ table _ _ _ _ _ _ => table

def whereClause : Select → Clause
  | mk _ _ _ where_clause _ _ _ _ _ => where_clause

def havingClause : Select → Clause
  | mk _ _ _ _ _ having_clause _ _ _ => having_clause

end Select

/-! ## What is pushed -/

abbrev Stack := List StackMember

/-- `pushoperand`, and `pushaggregate`. -/
def Operand.val : Operand → Bytes
  | .string s => operandString :: s
  | .identifier s => operandIdentifier :: s
  | .parameter n => operandParameter :: int64Bytes n
  | .integer v => operandInteger :: int64Bytes v
  | .float v => operandFloat :: v.toBytes 16
  | .aggregate aggregatetype s => operandAggregate :: aggregatetype :: s
  | .null => [operandNull]
  | .boolean b => [operandBoolean, if b then 116 else 102]

def Binary.operatortype : Binary → Operatortype
  | .concatenation => .concatenation
  | .addition => .addition
  | .subtraction => .subtraction
  | .multiplication => .multiplication
  | .division => .division

def Comparison.operatortype : Comparison → Operatortype
  | .eq => .eq
  | .ne => .ne
  | .lt => .lt
  | .gt => .gt
  | .lte => .lte
  | .gte => .gte

def Truthvalue.operatortype : Truthvalue → Operatortype
  | .true => .true
  | .false => .false
  | .unknown => .unknown
  | .null => .null

def Quantifier.push (stack : Stack) : Option Quantifier → Stack
  | none => stack
  | some .distinct => .typeDistinct :: stack
  | some .all => .typeAll :: stack

def Columns.count : Columns → ℕ
  | .asterisk => 1
  | .list columns => columns.length

def Columns.push (stack : Stack) : Columns → Stack
  | .asterisk => .typeColumns 1 :: .typeAsterisk :: stack
  | .list columns =>
      .typeColumns columns.length ::
        columns.foldl (fun stack o => .typeOperand o.val :: stack) stack

/-- `identifier`. -/
def pushIdentifier (stack : Stack) (name : Bytes) : Stack :=
  .typeOperand (Operand.identifier name).val :: stack

/-- `group_by_clause`. -/
def pushGroupby (stack : Stack) : List Bytes → Stack
  | [] => stack
  | names => .typeGroupby :: names.foldl pushIdentifier stack

/-- `sort_specification`. -/
def pushSort (stack : Stack) (sort : Bytes × Bool) : Stack :=
  .typeSortspecification :: (if sort.2 then .typeAsc else .typeDesc) ::
    pushIdentifier stack sort.1

/-- `order_by_clause`. -/
def pushOrderby (stack : Stack) : List (Bytes × Bool) → Stack
  | [] => stack
  | sorts => .typeOrderby :: sorts.foldl pushSort stack

/-- An alternative that pushes its own type. -/
def pushIf (b : Bool) (item : StackMember) (stack : Stack) : Stack :=
  if b then item :: stack else stack

mutual

def Expression.push (stack : Stack) : Expression → Stack
  | .operand o => .typeOperand o.val :: stack
  | .subquery s => .typeOperand [operandSubquery] :: s.push stack
  | .binary op left right =>
      .typeOperator op.operatortype :: right.push (left.push stack)
  | .negation right => .typeOperator .negation :: right.push stack

/-- Each expression of the list is an `expression`. -/
def ExpressionList.push (stack : Stack) : ExpressionList → Stack
  | .one e => .typeExpression :: e.push stack
  | .snoc list e => .typeExpression :: e.push (list.push stack)

def Condition.push (stack : Stack) : Condition → Stack
  | .comparison op left right =>
      .typeOperator op.operatortype :: .typeExpression ::
        right.push (.typeExpression :: left.push stack)
  | .between negated e lower upper =>
      .typeOperator (if negated then .notbetween else .between) ::
        .typeOperator .betweenand :: .typeExpression ::
          upper.push (.typeExpression ::
            lower.push (.typeExpression :: e.push stack))
  | .isnull negated e =>
      .typeOperator (if negated then .isnotnull else .isnull) ::
        .typeExpression :: e.push stack
  | .inList negated e list =>
      .typeOperator (if negated then .notin else .in) :: .typeInobject ::
        list.push (.typeInbegin :: .typeExpression :: e.push stack)
  | .inSubquery negated e s =>
      .typeOperator (if negated then .notin else .in) :: .typeInobject ::
        .typeOperand [operandSubquery] ::
          s.push (.typeInbegin :: .typeExpression :: e.push stack)
  | .like negated e pattern =>
      .typeOperator (if negated then .notlike else .like) ::
        .typeOperand (Operand.string pattern).val :: .typeExpression ::
          e.push stack
  | .exists s =>
      .typeOperator .exists :: .typeOperand [operandSubquery] :: s.push stack
  | .unique s =>
      .typeOperator .unique :: .typeOperand [operandSubquery] :: s.push stack
  | .truthtest c value => .typeOperator value.operatortype :: c.push stack
  | .not c => .typeOperator .not :: c.push stack
  | .and left right => .typeOperator .and :: right.push (left.push stack)
  | .or left right => .typeOperator .or :: right.push (left.push stack)

/-- With the type that the clause pushes. -/
def Clause.push (type : StackMember) (stack : Stack) : Clause → Stack
  | .absent => stack
  | .present c => type :: .typeSearchCondition :: c.push stack

def Select.push (stack : Stack) : Select → Stack
  | .mk quantifier columns table where_clause groupby having_clause forupdate
      nolock orderby =>
      .typeSelect columns.count ::
        pushOrderby
          (pushIf nolock .typeNolock
            (pushIf forupdate .typeForupdate
              (having_clause.push .typeHaving
                (pushGroupby
                  (where_clause.push .typeWhere
                    (.typeFrom :: pushIdentifier
                      (columns.push (Quantifier.push stack quantifier)) table))
                  groupby)))) orderby

end

/-- `setassignment`. -/
def pushAssignment (stack : Stack) (assignment : Bytes × Expression) : Stack :=
  .typeAssignment :: .typeExpression ::
    assignment.2.push (pushIdentifier stack assignment.1)

/-- The stack that a statement leaves. -/
def Stmt.parsedStack : Stmt → Stack
  | .select s => s.push []
  | .insert table values =>
      .typeInsert :: values.push (pushIdentifier [] table)
  | .update table assignments _ where_clause =>
      .typeUpdate :: where_clause.push .typeWhere
        (assignments.foldl pushAssignment (pushIdentifier [] table))
  | .delete table where_clause =>
      .typeDelete :: where_clause.push .typeWhere (pushIdentifier [] table)

/-- What the statement is compiled to. -/
def Stmt.queries (st : Stmt) : Option (List Query) := eatstack st.parsedStack

end Infinisql.Larx
