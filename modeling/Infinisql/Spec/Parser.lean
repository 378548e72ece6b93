import Infinisql.Ref.Parser

/-!
# Statements as they are written

Every statement has a way to be written in which an operand of an operator is
put in parentheses where it would be read otherwise, and only there. AND and OR
are of one level, so on the right of either a condition with one of them is in
parentheses, and on the left it is not.

The types of the rules allow for more than the rules do: an aggregate of any
type, and any operand for a column. `Derived` leaves out what is not derived.
-/

namespace Infinisql.Larx

open Infinisql.Ref (Bytes FieldInput LongDouble)
open Infinisql.Lib.Precedence

/-! ## Operands and operators -/

def aggregateKeyword (a : UInt8) : Keyword :=
  if a = 97 then .larxAvg else if a = 98 then .larxCount
  else if a = 99 then .larxMax else if a = 100 then .larxMin else .larxSum

def Operand.tokens : Operand → List Token
  | .string s => [.stringval s]
  | .identifier s => [.identifier s]
  | .parameter n => [.parameter n]
  | .integer v => if v.msb then [.char 45, .intval (-v)] else [.intval v]
  | .float v => [.floatval v]
  | .aggregate a s =>
      [.keyword (aggregateKeyword a), .char 40, .identifier s, .char 41]
  | .null => [.keyword .larxNull]
  | .boolean b => [.keyword (if b then .larxTrue else .larxFalse)]

def Operand.Derived : Operand → Prop
  | .aggregate a _ => 97 ≤ a ∧ a ≤ 101
  | _ => True

def Binary.token : Binary → Token
  | .concatenation => .concat
  | .addition => .char 43
  | .subtraction => .char 45
  | .multiplication => .char 42
  | .division => .char 47

def Comparison.token : Comparison → Token
  | .eq => .char 61
  | .ne => .ne
  | .lt => .char 60
  | .gt => .char 62
  | .lte => .lte
  | .gte => .gte

def Truthvalue.token : Truthvalue → Token
  | .true => .keyword .larxTrue
  | .false => .keyword .larxFalse
  | .unknown => .keyword .larxUnknown
  | .null => .keyword .larxNull

/-- The level that an operator must be above to take the expression as it
stands. -/
def Expression.level : Expression → ℕ
  | .binary op _ _ => op.level
  | _ => 3

/-- What the condition is, as far as an operator next to it goes. -/
inductive Shape
  | closed
  | negation
  | truthtest
  | connective
  deriving DecidableEq

def Condition.shape : Condition → Shape
  | .not _ => .negation
  | .and _ _ => .connective
  | .or _ _ => .connective
  | .truthtest _ _ => .truthtest
  | _ => .closed

/-! ## Tokens -/

def parens (needed : Bool) (ts : List Token) : List Token :=
  if needed then .char 40 :: (ts ++ [Token.char 41]) else ts

def commas : List (List Token) → List Token
  | [] => []
  | [ts] => ts
  | ts :: rest => ts ++ Token.char 44 :: commas rest

def notTokens (negated : Bool) : List Token :=
  if negated then [.keyword .larxNot] else []

def Columns.tokens : Columns → List Token
  | .asterisk => [.char 42]
  | .list columns => commas (columns.map Operand.tokens)

def quantifierTokens : Option Quantifier → List Token
  | none => []
  | some .distinct => [.keyword .larxDistinct]
  | some .all => [.keyword .larxAll]

def groupbyTokens : List Bytes → List Token
  | [] => []
  | names => .keyword .larxGroup :: .keyword .larxBy ::
      commas (names.map fun name => [.identifier name])

def sortTokens (sort : Bytes × Bool) : List Token :=
  [.identifier sort.1, .keyword (if sort.2 then .larxAsc else .larxDesc)]

def orderbyTokens : List (Bytes × Bool) → List Token
  | [] => []
  | sorts => .keyword .larxOrder :: .keyword .larxBy ::
      commas (sorts.map sortTokens)

def forupdateTokens (forupdate : Bool) : List Token :=
  if forupdate then [.keyword .larxFor, .keyword .larxUpdate] else []

def nolockTokens (nolock : Bool) : List Token :=
  if nolock then [.keyword .larxNo, .keyword .larxLock] else []

mutual

def Expression.tokens : Expression → List Token
  | .operand o => o.tokens
  | .subquery s => .char 40 :: (s.tokens ++ [Token.char 41])
  | .binary op left right =>
      parens (left.level < op.level) left.tokens ++
        op.token :: parens (right.level ≤ op.level) right.tokens
  | .negation right => .char 45 :: .char 40 :: (right.tokens ++ [Token.char 41])

def ExpressionList.tokens : ExpressionList → List Token
  | .one e => e.tokens
  | .snoc list e => list.tokens ++ Token.char 44 :: e.tokens

def Condition.tokens : Condition → List Token
  | .comparison op left right => left.tokens ++ op.token :: right.tokens
  | .between negated e lower upper =>
      e.tokens ++ (notTokens negated ++ Token.keyword .larxBetween ::
        (lower.tokens ++ Token.keyword .larxAnd :: upper.tokens))
  | .isnull negated e =>
      e.tokens ++ Token.keyword .larxIs :: (notTokens negated ++
        [Token.keyword .larxNull])
  | .inList negated e list =>
      e.tokens ++ (notTokens negated ++ Token.keyword .larxIn :: .char 40 ::
        (list.tokens ++ [Token.char 41]))
  | .inSubquery negated e s =>
      e.tokens ++ (notTokens negated ++ Token.keyword .larxIn :: .char 40 ::
        (s.tokens ++ [Token.char 41]))
  | .like negated e pattern =>
      e.tokens ++ (notTokens negated ++
        [Token.keyword .larxLike, .stringval pattern])
  | .exists s =>
      .keyword .larxExists :: .char 40 :: (s.tokens ++ [Token.char 41])
  | .unique s =>
      .keyword .larxUnique :: .char 40 :: (s.tokens ++ [Token.char 41])
  | .truthtest c value =>
      parens (c.shape = .negation ∨ c.shape = .connective) c.tokens ++
        [Token.keyword .larxIs, value.token]
  | .not c =>
      .keyword .larxNot ::
        parens (c.shape = .truthtest ∨ c.shape = .connective) c.tokens
  | .and left right =>
      left.tokens ++ Token.keyword .larxAnd ::
        parens (right.shape = .connective) right.tokens
  | .or left right =>
      left.tokens ++ Token.keyword .larxOr ::
        parens (right.shape = .connective) right.tokens

def Clause.tokens (k : Keyword) : Clause → List Token
  | .absent => []
  | .present c => .keyword k :: c.tokens

def Select.tokens : Select → List Token
  | .mk quantifier columns table where_clause groupby having_clause forupdate
      nolock orderby =>
      .keyword .larxSelect :: (quantifierTokens quantifier ++
        (columns.tokens ++ Token.keyword .larxFrom :: .identifier table ::
          (where_clause.tokens .larxWhere ++ (groupbyTokens groupby ++
            (having_clause.tokens .larxHaving ++
              (forupdateTokens forupdate ++ (nolockTokens nolock ++
                orderbyTokens orderby)))))))

end

theorem Expression.tokens_subquery (s : Select) :
    (Expression.subquery s).tokens =
      .char 40 :: (s.tokens ++ [Token.char 41]) := by
  rw [Expression.tokens]

theorem Condition.tokens_exists (s : Select) : (Condition.exists s).tokens =
    .keyword .larxExists :: .char 40 :: (s.tokens ++ [Token.char 41]) := by
  rw [Condition.tokens]

def assignmentTokens (assignment : Bytes × Expression) : List Token :=
  .identifier assignment.1 :: .char 61 :: assignment.2.tokens

def Stmt.tokens : Stmt → List Token
  | .select s => s.tokens
  | .insert table values =>
      .keyword .larxInsert :: .keyword .larxInto :: .identifier table ::
        .keyword .larxValues :: .char 40 :: (values.tokens ++ [Token.char 41])
  | .update table assignments _ where_clause =>
      .keyword .larxUpdate :: .identifier table :: .keyword .larxSet ::
        (commas (assignments.map assignmentTokens) ++
          where_clause.tokens .larxWhere)
  | .delete table where_clause =>
      .keyword .larxDelete :: .keyword .larxFrom :: .identifier table ::
        where_clause.tokens .larxWhere

/-! ## Chains -/

def Connective.token : Connective → Token
  | .and => .keyword .larxAnd
  | .or => .keyword .larxOr

def Connective.join (left : Condition) (o : Connective)
    (right : Condition) : Condition :=
  match o with
  | .and => .and left right
  | .or => .or left right

/-- Conditions with a connective before each but the first. -/
def connected (c : Condition) (rest : List (Connective × Condition)) :
    List Token :=
  c.tokens ++ rest.flatMap fun next => next.1.token :: next.2.tokens

/-- They are joined from the left, whatever the connectives are. -/
def joined (c : Condition) (rest : List (Connective × Condition)) :
    Condition :=
  rest.foldl (fun left next => next.1.join left next.2) c

/-- Expressions with an operator before each but the first. -/
def operated (e : Expression) (rest : List (Binary × Expression)) :
    List Token :=
  e.tokens ++ rest.flatMap fun next => next.1.token :: next.2.tokens

def combined (e : Expression) (rest : List (Binary × Expression)) :
    Expression :=
  rest.foldl (fun left next => .binary next.1 left next.2) e

/-- A product: its first factor, and the others. -/
abbrev Product := Expression × List (Binary × Expression)

/-- A sum of products as it is written. -/
def sumTokens (p : Product) (rest : List (Binary × Product)) : List Token :=
  operated p.1 p.2 ++ rest.flatMap fun next =>
    next.1.token :: operated next.2.1 next.2.2

def sumOf (p : Product) (rest : List (Binary × Product)) : Expression :=
  combined (combined p.1 p.2) (rest.map fun next =>
    (next.1, combined next.2.1 next.2.2))

/-! ## What the rules derive -/

def Columns.Derived : Columns → Prop
  | .asterisk => True
  | .list columns => columns ≠ [] ∧ ∀ o ∈ columns,
      (∃ s, o = .identifier s) ∨ ∃ a s, o = .aggregate a s ∧ o.Derived

mutual

def Expression.Derived : Expression → Prop
  | .operand o => o.Derived
  | .subquery s => s.Derived
  | .binary _ left right => left.Derived ∧ right.Derived
  | .negation right => right.Derived

def ExpressionList.Derived : ExpressionList → Prop
  | .one e => e.Derived
  | .snoc list e => list.Derived ∧ e.Derived

def Condition.Derived : Condition → Prop
  | .comparison _ left right => left.Derived ∧ right.Derived
  | .between _ e lower upper => e.Derived ∧ lower.Derived ∧ upper.Derived
  | .isnull _ e => e.Derived
  | .inList _ e list => e.Derived ∧ list.Derived
  | .inSubquery _ e s => e.Derived ∧ s.Derived
  | .like _ e _ => e.Derived
  | .exists s => s.Derived
  | .unique s => s.Derived
  | .truthtest c _ => c.Derived
  | .not c => c.Derived
  | .and left right => left.Derived ∧ right.Derived
  | .or left right => left.Derived ∧ right.Derived

def Clause.Derived : Clause → Prop
  | .absent => True
  | .present c => c.Derived

def Select.Derived : Select → Prop
  | .mk _ columns _ where_clause _ having_clause _ _ _ =>
      columns.Derived ∧ where_clause.Derived ∧ having_clause.Derived

end

theorem Condition.derived_exists {s : Select} (h : s.Derived) :
    (Condition.exists s).Derived := by
  rw [Condition.Derived]
  exact h

def Stmt.Derived : Stmt → Prop
  | .select s => s.Derived
  | .insert _ values => values.Derived
  | .update _ assignments _ where_clause =>
      (∀ a ∈ assignments, a.2.Derived) ∧ where_clause.Derived
  | .delete _ where_clause => where_clause.Derived

/-- The operators of a product are of one level, and its factors have none
outside of parentheses. -/
def Product.Proper (p : Product) : Prop :=
  (p.1.level = 3 ∧ p.1.Derived) ∧ ∀ next ∈ p.2,
    next.1.level = 2 ∧ next.2.level = 3 ∧ next.2.Derived

end Infinisql.Larx
