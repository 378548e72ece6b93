import Infinisql.Lib.Precedence
import Infinisql.Ref.AstNodes
import Infinisql.Ref.Grammar
import Infinisql.Ref.Lexer

/-!
# From tokens to statements

The rules of `parser.yy` as readers, each of which takes what its rule derives
off the tokens. The parser that is generated from them decides by one token; so
do the readers, but for `search_condition2`, where a parenthesis may open a
condition or an expression and the generated parser goes on with both.

The rules of `expression2` and of `search_condition2` are ambiguous. What is
declared with `%left` and `%nonassoc` settles this: a rule has the level of its
operator, and against an operator of a higher level it is not reduced yet. AND
and OR are of one level, which is that of `+`; NOT and IS are of one level,
where neither is to follow the other.
-/

namespace Infinisql.Larx

open Infinisql.Ref (Bytes FieldInput LongDouble)
open Infinisql.Lib.Precedence

/-- What takes a value off the tokens. -/
abbrev Takes (α : Type) := List Token → Option (α × List Token)

/-- One value or more, between commas, in at most so many rounds. -/
def commaList {α : Type} (p : Takes α) : ℕ → Takes (List α)
  | 0, _ => none
  | fuel + 1, ts =>
      match p ts with
      | none => none
      | some (a, .char 44 :: rest) =>
          (commaList p fuel rest).map fun found => (a :: found.1, found.2)
      | some (a, rest) => some ([a], rest)

/-! ## Operands -/

/-- `identifier`, but for `t.*`. -/
def identifier : Takes Bytes
  | .identifier s :: .char 46 :: .identifier t :: rest =>
      some (s ++ 46 :: t, rest)
  | .identifier _ :: .char 46 :: _ => none
  | .identifier s :: rest => some (s, rest)
  | _ => none

/-- The keywords of `aggregate`. -/
def aggregatetype : Keyword → Option UInt8
  | .larxAvg => some 97
  | .larxCount => some 98
  | .larxMax => some 99
  | .larxMin => some 100
  | .larxSum => some 101
  | _ => none

/-- `aggregate`. -/
def aggregate : Takes Operand
  | .keyword k :: .char 40 :: .identifier s :: .char 41 :: rest =>
      (aggregatetype k).map fun a => (.aggregate a s, rest)
  | _ => none

/-- `operand`, but for a subquery. -/
def operand (ld : LongDouble) : Takes Operand
  | .intval n :: rest => some (.integer n, rest)
  | .floatval v :: rest => some (.float v, rest)
  | .char 45 :: .intval n :: rest => some (.integer (0#64 - n), rest)
  | .char 45 :: .floatval v :: rest => some (.float (ld.sub 0#128 v), rest)
  | .char 43 :: .intval n :: rest => some (.integer n, rest)
  | .char 43 :: .floatval v :: rest => some (.float v, rest)
  | .stringval s :: rest => some (.string s, rest)
  | .parameter n :: rest => some (.parameter n, rest)
  | .keyword .larxNull :: rest => some (.null, rest)
  | .keyword .larxTrue :: rest => some (.boolean true, rest)
  | .keyword .larxFalse :: rest => some (.boolean false, rest)
  | .keyword k :: rest => aggregate (.keyword k :: rest)
  | ts => (identifier ts).map fun found => (.identifier found.1, found.2)

/-- `subquery`. -/
def subquery (select_stmt : Takes Select) : Takes Select
  | .char 40 :: rest =>
      match select_stmt rest with
      | some (s, .char 41 :: rest) => some (s, rest)
      | _ => none
  | _ => none

/-! ## Expressions -/

/-- What stands before an expression in parentheses. -/
inductive Bracket
  | plain
  | negated
  | plus
  deriving DecidableEq

abbrev ExpressionTerm :=
  Term (Operand ⊕ Select) Bracket Empty Binary Empty

/-- The level of an operator, by `%left`. -/
def Binary.level : Binary → ℕ
  | .concatenation => 1
  | .addition => 1
  | .subtraction => 1
  | .multiplication => 2
  | .division => 2

/-- All levels associate to the left. -/
def resolveExpression : Rule Empty Binary → Op Binary Empty → Resolution
  | .binary b, .binary o => if b.level < o.level then .shift else .reduce
  | .unary u, _ => u.elim
  | _, .trailing q => q.elim

def binaryOf : Token → Option Binary
  | .concat => some .concatenation
  | .char 43 => some .addition
  | .char 45 => some .subtraction
  | .char 42 => some .multiplication
  | .char 47 => some .division
  | _ => none

/-- How `expression2` is read, with what an operand can be. -/
def expressionReader (ld : LongDouble) (select_stmt : Takes Select) :
    Reader Token (Operand ⊕ Select) Bracket Empty Binary Empty where
  first
    | .char 40 :: .keyword .larxSelect :: rest =>
        (subquery select_stmt
          (.char 40 :: .keyword .larxSelect :: rest)).map
            fun found => (.atom (.inr found.1), found.2)
    | .char 40 :: rest => some (.bracket .plain, rest)
    | .char 45 :: .char 40 :: rest => some (.bracket .negated, rest)
    | .char 43 :: .char 40 :: rest => some (.bracket .plus, rest)
    | ts => (operand ld ts).map fun found => (.atom (.inl found.1), found.2)
  op
    | t :: rest => (binaryOf t).map fun b => (.binary b, rest)
    | [] => none
  close
    | .char 41 :: rest => some rest
    | _ => none

/-- What the actions of `expression2` make of it. -/
def toExpression : ExpressionTerm → Expression
  | .atom (.inl o) => .operand o
  | .atom (.inr s) => .subquery s
  | .bracket .negated e => .negation (toExpression e)
  | .bracket _ e => toExpression e
  | .binary left b right => .binary b (toExpression left) (toExpression right)
  | .unary u _ => u.elim
  | .trailing _ q => q.elim

section

variable (ld : LongDouble) (select_stmt : Takes Select)

/-- `expression`. -/
def expression : Takes Expression := fun ts =>
  (parse (expressionReader ld select_stmt) resolveExpression ts).map
    fun found => (toExpression found.1, found.2)

def ExpressionList.ofList (e : Expression) (es : List Expression) :
    ExpressionList :=
  es.foldl .snoc (.one e)

/-- `expressionlist`. -/
def expressionlist : Takes ExpressionList := fun ts =>
  match commaList (expression ld select_stmt) ts.length ts with
  | some (e :: es, rest) => some (.ofList e es, rest)
  | _ => none

/-! ## Predicates -/

def comparisonOf : Token → Option Comparison
  | .char 61 => some .eq
  | .ne => some .ne
  | .char 60 => some .lt
  | .char 62 => some .gt
  | .lte => some .lte
  | .gte => some .gte
  | _ => none

/-- `betweenexpressions`. -/
def betweenexpressions (negated : Bool) (e : Expression) : Takes Condition :=
  fun ts =>
    match expression ld select_stmt ts with
    | some (lower, .keyword .larxAnd :: rest) =>
        (expression ld select_stmt rest).map fun found =>
          (.between negated e lower found.1, found.2)
    | _ => none

/-- `in_object`. -/
def inObject (negated : Bool) (e : Expression) : Takes Condition
  | .char 40 :: .keyword .larxSelect :: rest =>
      (subquery select_stmt (.char 40 :: .keyword .larxSelect :: rest)).map
        fun found => (.inSubquery negated e found.1, found.2)
  | .char 40 :: rest =>
      match expressionlist ld select_stmt rest with
      | some (list, .char 41 :: rest) => some (.inList negated e list, rest)
      | _ => none
  | _ => none

/-- A predicate behind its first expression. -/
def predicateTail (e : Expression) : Takes Condition
  | .keyword .larxBetween :: rest =>
      betweenexpressions ld select_stmt false e rest
  | .keyword .larxNot :: .keyword .larxBetween :: rest =>
      betweenexpressions ld select_stmt true e rest
  | .keyword .larxIs :: .keyword .larxNull :: rest =>
      some (.isnull false e, rest)
  | .keyword .larxIs :: .keyword .larxNot :: .keyword .larxNull :: rest =>
      some (.isnull true e, rest)
  | .keyword .larxIn :: rest => inObject ld select_stmt false e rest
  | .keyword .larxNot :: .keyword .larxIn :: rest =>
      inObject ld select_stmt true e rest
  | .keyword .larxLike :: .stringval pattern :: rest =>
      some (.like false e pattern, rest)
  | .keyword .larxNot :: .keyword .larxLike :: .stringval pattern :: rest =>
      some (.like true e pattern, rest)
  | t :: rest =>
      match comparisonOf t with
      | none => none
      | some op => (expression ld select_stmt rest).map fun found =>
          (.comparison op e found.1, found.2)
  | [] => none

/-- `predicate`. -/
def predicate : Takes Condition
  | .keyword .larxExists :: rest =>
      (subquery select_stmt rest).map fun found => (.exists found.1, found.2)
  | .keyword .larxUnique :: rest =>
      (subquery select_stmt rest).map fun found => (.unique found.1, found.2)
  | ts =>
      match expression ld select_stmt ts with
      | none => none
      | some (e, rest) => predicateTail ld select_stmt e rest

end

/-! ## Conditions -/

inductive Connective
  | and
  | or
  deriving DecidableEq

abbrev ConditionTerm := Term Condition Unit Unit Connective Truthvalue

/-- NOT and IS are above AND and OR, and neither follows the other. -/
def resolveCondition : Rule Unit Connective → Op Connective Truthvalue →
    Resolution
  | .unary _, .binary _ => .reduce
  | .unary _, .trailing _ => .error
  | .binary _, .binary _ => .reduce
  | .binary _, .trailing _ => .shift

def truthvalueOf : Token → Option Truthvalue
  | .keyword .larxTrue => some .true
  | .keyword .larxFalse => some .false
  | .keyword .larxUnknown => some .unknown
  | .keyword .larxNull => some .null
  | _ => none

/-- How `search_condition2` is read. -/
def conditionReader (ld : LongDouble) (select_stmt : Takes Select) :
    Reader Token Condition Unit Unit Connective Truthvalue where
  first
    | .keyword .larxNot :: rest => some (.unary (), rest)
    | ts =>
        match predicate ld select_stmt ts with
        | some (c, rest) => some (.atom c, rest)
        | none =>
            match ts with
            | .char 40 :: rest => some (.bracket (), rest)
            | _ => none
  op
    | .keyword .larxAnd :: rest => some (.binary .and, rest)
    | .keyword .larxOr :: rest => some (.binary .or, rest)
    | .keyword .larxIs :: t :: rest =>
        (truthvalueOf t).map fun value => (.trailing value, rest)
    | _ => none
  close
    | .char 41 :: rest => some rest
    | _ => none

/-- What the actions of `search_condition2` make of it. -/
def toCondition : ConditionTerm → Condition
  | .atom c => c
  | .bracket _ c => toCondition c
  | .unary _ c => .not (toCondition c)
  | .binary left .and right => .and (toCondition left) (toCondition right)
  | .binary left .or right => .or (toCondition left) (toCondition right)
  | .trailing c value => .truthtest (toCondition c) value

section

variable (ld : LongDouble) (select_stmt : Takes Select)

/-- `search_condition`. -/
def searchCondition : Takes Condition := fun ts =>
  (parse (conditionReader ld select_stmt) resolveCondition ts).map
    fun found => (toCondition found.1, found.2)

/-! ## Statements -/

/-- `where_clause` and `having_clause`, with their keyword. -/
def clause (k : Keyword) : Takes Clause
  | .keyword k' :: rest =>
      if k' = k then
        (searchCondition ld select_stmt rest).map fun found =>
          (.present found.1, found.2)
      else some (.absent, .keyword k' :: rest)
  | ts => some (.absent, ts)

/-- A member of `aggregate_expression_list`. -/
def column : Takes Operand := fun ts =>
  match aggregate ts with
  | some found => some found
  | none => (identifier ts).map fun found => (.identifier found.1, found.2)

/-- `columns`. -/
def columns : Takes Columns
  | .char 42 :: rest => some (.asterisk, rest)
  | ts => (commaList column ts.length ts).map fun found =>
      (.list found.1, found.2)

/-- `set_quantifier`, if there is one. -/
def setQuantifier : List Token → Option Quantifier × List Token
  | .keyword .larxDistinct :: rest => (some .distinct, rest)
  | .keyword .larxAll :: rest => (some .all, rest)
  | ts => (none, ts)

/-- `from_clause`. -/
def fromClause : Takes Bytes
  | .keyword .larxFrom :: rest => identifier rest
  | _ => none

/-- `group_by_clause`. -/
def groupByClause : Takes (List Bytes)
  | .keyword .larxGroup :: .keyword .larxBy :: rest =>
      commaList identifier rest.length rest
  | .keyword .larxGroup :: _ => none
  | ts => some ([], ts)

/-- `for_update_clause`. -/
def forUpdateClause : Takes Bool
  | .keyword .larxFor :: .keyword .larxUpdate :: rest => some (true, rest)
  | .keyword .larxFor :: _ => none
  | ts => some (false, ts)

/-- `no_lock_clause`. -/
def noLockClause : Takes Bool
  | .keyword .larxNo :: .keyword .larxLock :: rest => some (true, rest)
  | .keyword .larxNo :: _ => none
  | ts => some (false, ts)

/-- `sort_specification`. -/
def sortSpecification : Takes (Bytes × Bool) := fun ts =>
  match identifier ts with
  | none => none
  | some (name, .keyword .larxAsc :: rest) => some ((name, true), rest)
  | some (name, .keyword .larxDesc :: rest) => some ((name, false), rest)
  | some (name, rest) => some ((name, true), rest)

/-- `order_by_clause`. -/
def orderByClause : Takes (List (Bytes × Bool))
  | .keyword .larxOrder :: .keyword .larxBy :: rest =>
      commaList sortSpecification rest.length rest
  | .keyword .larxOrder :: _ => none
  | ts => some ([], ts)

/-- The clauses of a `select_stmt` behind the table. -/
def selectTail (quantifier : Option Quantifier) (columns : Columns)
    (table : Bytes) : Takes Select := fun ts => do
  let (where_clause, ts) ← clause ld select_stmt .larxWhere ts
  let (groupby, ts) ← groupByClause ts
  let (having_clause, ts) ← clause ld select_stmt .larxHaving ts
  let (forupdate, ts) ← forUpdateClause ts
  let (nolock, ts) ← noLockClause ts
  let (orderby, ts) ← orderByClause ts
  pure (.mk quantifier columns table where_clause groupby having_clause
    forupdate nolock orderby, ts)

end

/-- `select_stmt`, but for a stored procedure, with so many queries one within
the other. -/
def selectStmt (ld : LongDouble) : ℕ → Takes Select
  | fuel + 1, .keyword .larxSelect :: ts => do
      let (quantifier, ts) := setQuantifier ts
      let (columns, ts) ← columns ts
      let (table, ts) ← fromClause ts
      selectTail ld (selectStmt ld fuel) quantifier columns table ts
  | _, _ => none

/-- `setassignment`. -/
def setassignment (ld : LongDouble) (select_stmt : Takes Select) :
    Takes (Bytes × Expression) := fun ts =>
  match identifier ts with
  | some (name, .char 61 :: rest) =>
      (expression ld select_stmt rest).map fun found =>
        ((name, found.1), found.2)
  | _ => none

/-- `stmt`, as far as rows are read or written, without its terminator. -/
def stmt (ld : LongDouble) (fuel : ℕ) : Takes Stmt
  | .keyword .larxInsert :: .keyword .larxInto :: ts => do
      let (table, ts) ← identifier ts
      match ts with
      | .keyword .larxValues :: .char 40 :: ts =>
          match ← expressionlist ld (selectStmt ld fuel) ts with
          | (values, .char 41 :: ts) => some (.insert table values, ts)
          | _ => none
      | _ => none
  | .keyword .larxUpdate :: ts => do
      let (table, ts) ← identifier ts
      match ts with
      | .keyword .larxSet :: ts =>
          let (assignments, ts) ←
            commaList (setassignment ld (selectStmt ld fuel)) ts.length ts
          let (where_clause, ts) ←
            clause ld (selectStmt ld fuel) .larxWhere ts
          if h : assignments ≠ [] then
            some (.update table assignments h where_clause, ts)
          else none
      | _ => none
  | .keyword .larxDelete :: .keyword .larxFrom :: ts => do
      let (table, ts) ← identifier ts
      let (where_clause, ts) ← clause ld (selectStmt ld fuel) .larxWhere ts
      some (.delete table where_clause, ts)
  | ts => (selectStmt ld fuel ts).map fun found => (.select found.1, found.2)

theorem stmt_select (ld : LongDouble) (fuel : ℕ) (ts : List Token) :
    stmt ld fuel (.keyword .larxSelect :: ts) =
      (selectStmt ld fuel (.keyword .larxSelect :: ts)).map
        fun found => (.select found.1, found.2) := by
  rw [stmt]
  all_goals simp

/-- The whole text is a statement, with a terminator or without. -/
def yyparse (ld : LongDouble) (ts : List Token) : Option Stmt :=
  match stmt ld ts.length ts with
  | some (st, []) => some st
  | some (st, [.char 59]) => some st
  | _ => none

end Infinisql.Larx
