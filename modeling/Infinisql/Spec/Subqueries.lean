import Infinisql.Ref.Subqueries

/-!
# Subqueries that feed their users

What a subquery owes the expression that it occurs in: to a scalar operand its
only value, in the type of the column that it selects, or NULL when it has no
row; to EXISTS whether it has one; to IN and NOT IN the selected column of all
its rows.

A statement is fed properly if each of its subqueries has a query of its own,
with the number of that query where the tree has the subquery, and if each is
run before the query whose expression uses it, and the expression works on
what is owed. `Stands` is the first half, over the grammar: it says nothing of
parts without subqueries.
-/

namespace Infinisql.Larx

open Infinisql.Ref (Bytes FieldInput FieldValue Field Fieldtype UuRecord
  operandType operandInteger operandFloat operandNull operandString
  operandBoolean integerOperand compareFields)
open Infinisql.Asts (Operatortype operandSubquery)

/-! ## The subqueries of a statement -/

/-- The subqueries that an expression uses itself, from right to left. -/
def Expression.subqueries : Expression → List Select
  | .operand _ => []
  | .subquery s => [s]
  | .binary _ left right => right.subqueries ++ left.subqueries
  | .negation right => right.subqueries

def ExpressionList.subqueries : ExpressionList → List Select
  | .one e => e.subqueries
  | .snoc list e => e.subqueries ++ list.subqueries

def Condition.subqueries : Condition → List Select
  | .comparison _ left right => right.subqueries ++ left.subqueries
  | .between _ e lower upper =>
      upper.subqueries ++ (lower.subqueries ++ e.subqueries)
  | .isnull _ e => e.subqueries
  | .inList _ e list => list.subqueries ++ e.subqueries
  | .inSubquery _ e s => s :: e.subqueries
  | .like _ e _ => e.subqueries
  | .exists s => [s]
  | .unique s => [s]
  | .truthtest c _ => c.subqueries
  | .not c => c.subqueries
  | .and left right => right.subqueries ++ left.subqueries
  | .or left right => right.subqueries ++ left.subqueries

def Clause.subqueries : Clause → List Select
  | .absent => []
  | .present c => c.subqueries

/-- Those of the assignments, from the last assignment to the first. -/
def assignedSubqueries (assignments : List (Bytes × Expression)) :
    List Select :=
  assignments.reverse.flatMap fun a => a.2.subqueries

/-! ## Each with its query -/

/-- The operand that stands for the query of that number. -/
def marker (i : ℕ) : Bytes := operandSubquery :: int64Bytes (BitVec.ofNat 64 i)

/-- The operands that the columns push, from the last to the first. -/
def Columns.vals : Columns → List Bytes
  | .asterisk => [[42]]
  | .list columns => columns.reverse.map Operand.val

mutual

/-- The tree is the expression's, as far as subqueries go. -/
def Expression.Stands (queries : List Query) : Expression → Tree → Prop
  | .operand _, _ => True
  | .subquery s, t => ∃ i, t = .operand (marker i) ∧ s.Stands queries i
  | .binary op left right, t => ∃ l r, t = .operator op.operatortype l r ∧
      left.Stands queries l ∧ right.Stands queries r
  | .negation right, t => ∃ l r, t = .operator .negation l r ∧
      right.Stands queries r

def ExpressionList.Stands (queries : List Query) :
    ExpressionList → List Tree → Prop
  | .one e, ts => ∃ t ∈ ts, e.Stands queries t
  | .snoc list e, ts => list.Stands queries ts ∧ ∃ t ∈ ts, e.Stands queries t

/-- The tree is the condition's in the query. -/
def Condition.Stands (queries : List Query) (q : Query) :
    Condition → Tree → Prop
  | .comparison op left right, t => ∃ l r,
      t = .operator op.operatortype l r ∧ left.Stands queries l ∧
      right.Stands queries r
  | .between negated e lower upper, t => ∃ l m r,
      t = .operator (if negated then .notbetween else .between) l
        (.operator .betweenand m r) ∧ e.Stands queries l ∧
      lower.Stands queries m ∧ upper.Stands queries r
  | .isnull negated e, t => ∃ l r,
      t = .operator (if negated then .isnotnull else .isnull) l r ∧
      e.Stands queries r
  | .inList negated e list, t => ∃ l r,
      t = .operator (if negated then .notin else .in) l r ∧
      e.Stands queries r ∧ list.Stands queries q.inobject.expressionlist
  | .inSubquery negated e s, t => ∃ (l r : Tree) (i : ℕ),
      t = .operator (if negated then .notin else .in) l r ∧
      e.Stands queries r ∧ q.inobject.issubquery = true ∧
      q.inobject.subquery = i ∧ s.Stands queries i
  | .like negated e _, t => ∃ l r,
      t = .operator (if negated then .notlike else .like) l r ∧
      e.Stands queries l
  | .exists s, t => ∃ (l : Tree) (i : ℕ),
      t = .operator .exists l (.operand (marker i)) ∧ s.Stands queries i
  | .unique s, t => ∃ (l : Tree) (i : ℕ),
      t = .operator .unique l (.operand (marker i)) ∧ s.Stands queries i
  | .truthtest c value, t => ∃ l r, t = .operator value.operatortype l r ∧
      c.Stands queries q r
  | .not c, t => ∃ l r, t = .operator .not l r ∧ c.Stands queries q r
  | .and left right, t => ∃ l r, t = .operator .and l r ∧
      left.Stands queries q l ∧ right.Stands queries q r
  | .or left right, t => ∃ l r, t = .operator .or l r ∧
      left.Stands queries q l ∧ right.Stands queries q r

def Clause.Stands (queries : List Query) (q : Query) : Clause → Prop
  | .absent => True
  | .present c => c.subqueries ≠ [] → c.Stands queries q q.searchCondition

/-- The query of that number is the SELECT. -/
def Select.Stands (queries : List Query) : Select → ℕ → Prop
  | .mk _ columns table where_clause _ having_clause _ _ _, i =>
      ∃ q, queries[i]? = some q ∧ q.type = .select ∧ q.table = table ∧
        q.fromColumns = columns.vals ∧ where_clause.Stands queries q ∧
        having_clause.Stands queries q

end

/-- The first query is the statement. -/
def Stmt.Stands (queries : List Query) (q : Query) : Stmt → Prop
  | .select s => s.Stands queries 0
  | .insert _ values => values.subqueries ≠ [] →
      values.Stands queries q.insertColumns
  | .update _ assignments _ where_clause =>
      (∀ a ∈ assignments, ∃ t, (a.1, t) ∈ q.assignments ∧
        a.2.Stands queries t) ∧ where_clause.Stands queries q
  | .delete _ where_clause => where_clause.Stands queries q

/-! ## What is owed -/

/-- The operand of a value of that type. -/
def valueOperand (type : Fieldtype) (v : FieldValue) : Bytes :=
  if v.isnull then [operandNull]
  else
    match type with
    | .int | .uint => integerOperand (v.value.setWidth 64)
    | .bool => [operandBoolean, if v.value.boolean then 116 else 102]
    | .float => operandFloat :: v.value.toBytes 16
    | .char => [operandString, UInt8.ofNat v.value.character.toNat]
    | .charx | .varchar => operandString :: v.str
    | .nofieldtype => [operandNull]

/-- The types of the columns that a query selects. -/
def selectedTypes (schema : Schema) (table : Bytes)
    (fromColumns : List Bytes) : Option (List Fieldtype) :=
  (schema table).bind fun fields => (fromColumnids fields fromColumns).bind
    fun ids => ids.mapM fun n => fields[n]?.map fun f => f.2.type

/-- No row, and NULL; or one row with one value, and that value. -/
def Scalar (types : Option (List Fieldtype)) (rows : SelectResults)
    (operand : Bytes) : Prop :=
  rows = [] ∧ operand = [operandNull] ∨
  ∃ uur v type, rows = [(uur, [v])] ∧ types = some [type] ∧
    operand = valueOperand type v

def truthValue (b : Bool) : Bytes := [operandBoolean, if b then 116 else 102]

/-- Two rows agree in the selected columns. -/
def SomeAgree (types : Option (List Fieldtype)) (rows : SelectResults) :
    Prop :=
  ∃ ts r r', types = some ts ∧ r ∈ rows ∧ r' ∈ rows ∧ r.1 ≠ r'.1 ∧
    columnsMatch ts r.2 r'.2 = true

/-- What a subquery with those rows owes the operator above it. -/
def Owed (schema : Schema) (q : Query) (rows : SelectResults)
    (operand : Bytes) : Option Operatortype → Prop
  | some .exists => operand = truthValue (decide (rows ≠ []))
  | some .unique => ∃ b, operand = truthValue b ∧
      (b = false ↔ SomeAgree (selectedTypes schema q.table q.fromColumns) rows)
  | _ => Scalar (selectedTypes schema q.table q.fromColumns) rows operand

/-- The number in a subquery's operand is that of a query that has been run,
and what the expression works on is owed by it. -/
def Fed (schema : Schema) (queries : List Query) (found : ℕ → SelectResults)
    (results : Results) (u : Use) (seen : Option Bytes) : Prop :=
  ∃ i q operand, u.operand = marker i ∧ queries[i]? = some q ∧
    results i = some (found i) ∧ seen = some operand ∧
    Owed schema q (found i) operand u.user

/-- A tree that `Ast::evaluate` walks is fed. -/
def Searches (schema : Schema) (queries : List Query)
    (found : ℕ → SelectResults) (results : Results) (t : Tree) : Prop :=
  ∀ u ∈ t.uses none, Fed schema queries found results u
    (operandSeen schema queries results u)

/-- All expressions of a query are fed. -/
structure QueryFed (schema : Schema) (queries : List Query)
    (found : ℕ → SelectResults) (results : Results) (q : Query) : Prop where
  searchCondition : Searches schema queries found results q.searchCondition
  expressionlist : ∀ t ∈ q.inobject.expressionlist,
    Searches schema queries found results t
  insertColumns : ∀ t ∈ q.insertColumns,
    Searches schema queries found results t
  assignments : ∀ a ∈ q.assignments, ∀ u ∈ a.2.uses none,
    Fed schema queries found results u
      (operandAssigned schema queries results u)
  inobject : q.inobject.issubquery = true → ∃ i : ℕ,
    q.inobject.subquery = i ∧ results i = some (found i) ∧
    valuesSeen queries results = (found i).mapM fun row => row.2[0]?

/-- The statement is compiled to queries that stand for it, and each query,
when it is begun, is fed by those that have been run. -/
def FeedsItsUsers (schema : Schema) (found : ℕ → SelectResults) (st : Stmt) :
    Prop :=
  ∃ queries q, st.queries = some queries ∧ queries[0]? = some q ∧
    st.Stands queries q ∧
    ∀ begun ∈ startQuery found queries.length (fun _ => none),
      ∀ q, queries[begun.1]? = some q →
        QueryFed schema queries found begun.2 q

/-! ## UNIQUE on its own -/

/-- An operand that is read as that truth value. -/
def IsTruth (operand : Bytes) (b : Bool) : Prop :=
  operandType operand = operandBoolean ∧
    operand.getD 1 0 = if b then 116 else 102

/-- `subqueryUnique` comes to its end, and the operand is then a truth value:
false if two different rows of the query agree in its columns, and only
then. -/
def AnswersUnique (schema : Schema) (queries : List Query) (results : Results)
    (operand : Bytes) : Prop :=
  ∃ i q after b, queryinstance operand = some i ∧ queries[i]? = some q ∧
    subqueryUnique schema queries results operand = some after ∧
    IsTruth after b ∧
    (b = false ↔ SomeAgree (selectedTypes schema q.table q.fromColumns)
      (selectResults results i))

/-! ## Where it works -/

/-- The first field of the table has a type under which the value reads as it
does under its own. -/
def ReadsAlike (first own : Fieldtype) (v : FieldValue) : Prop :=
  match first, own with
  | .int, .int | .int, .uint | .uint, .int | .uint, .uint => True
  | .float, .float => v.value.toNat < 2 ^ 64
  | .char, .char => True
  | .charx, .charx | .charx, .varchar | .varchar, .charx
  | .varchar, .varchar => True
  | .char, .charx | .char, .varchar | .charx, .char | .varchar, .char =>
      v.str = [UInt8.ofNat v.value.character.toNat]
  | _, _ => False

/-- The results of a subquery are those of no row, or one row with one value
that is not null and reads alike. -/
def Readable (schema : Schema) (s : Select) (rows : SelectResults) : Prop :=
  rows = [] ∨ ∃ uur v f rest own, rows = [(uur, [v])] ∧
    schema s.table = some (f :: rest) ∧
    selectedTypes schema s.table s.columns.vals = some [own] ∧
    v.isnull = false ∧ ReadsAlike f.2.type own v

/-- A subquery with no quantifier and no subquery of its own. -/
def Select.Flat (s : Select) : Prop :=
  s.quantifier = none ∧ s.whereClause.subqueries = [] ∧
    s.havingClause.subqueries = []

def Expression.isSubquery : Expression → Bool
  | .subquery _ => true
  | _ => false

/-- The statement has subqueries nowhere but below the operators of its
assignments, all flat, with results that can be read. -/
def Stmt.Arithmetic (schema : Schema) (found : ℕ → SelectResults) :
    Stmt → Prop
  | .select s => s.whereClause.subqueries = [] ∧
      s.havingClause.subqueries = []
  | .insert _ values => values.subqueries = []
  | .update _ assignments _ where_clause => where_clause.subqueries = [] ∧
      (∀ a ∈ assignments, a.2.isSubquery = false) ∧
      (∀ s ∈ assignedSubqueries assignments, s.Flat) ∧
      ∀ i s, (assignedSubqueries assignments)[i]? = some s →
        Readable schema s (found (i + 1))
  | .delete _ where_clause => where_clause.subqueries = []

/-- No field is assigned twice, the tables that the assignments' subqueries
read have fields, and there are not more of them than an `int64_t` counts. -/
def Stmt.Valid (schema : Schema) : Stmt → Prop
  | .update _ assignments _ _ => (assignments.map Prod.fst).Nodup ∧
      (∀ s ∈ assignedSubqueries assignments, ∃ f rest,
        schema s.table = some (f :: rest)) ∧
      (assignedSubqueries assignments).length < 2 ^ 63 - 1
  | _ => True

end Infinisql.Larx
