import Infinisql.Ref.SearchCondition
import Mathlib.Logic.Function.Iterate

/-!
# When a search is never left standing

A `Term` is what the parser makes of a condition or an expression, each node
with the address of its cell. It is more than the grammar means: where a
condition is misread, operators can have operands of any kind, or lack one.

Of a search it is to hold that every call of `searchExpression` returns, and
that whenever one returns with the condition not evaluated, a request is
outstanding and its replies lead back to the same node. `Sound` says when that
is so, along the term: each operator can be applied to what its operands come
to, each predicate is one that the engines can be asked, and what they are asked
they find.
-/

namespace Infinisql.Conditions

open Infinisql.Ref (Ast Assignop Bytes Field FieldInput FieldValue LongDouble
  floatOf integerOf integerOperand operandFieldid operandFloat operandInteger
  operandParameter operandString operandType toFloatOperand)
open Infinisql.Queues (Locktype)
open Infinisql.Asts (Node Operatortype)
open Infinisql.Lib

/-! ## Terms -/

inductive Term
  | missing
  | operand (this : ℕ) (value : Bytes)
  | operator (this : ℕ) (op : Operatortype) (left right : Term)

namespace Term

def root : Term → Option ℕ
  | missing => none
  | operand this _ => some this
  | operator this _ _ _ => some this

def addresses : Term → List ℕ
  | missing => []
  | operand this _ => [this]
  | operator this _ left right => this :: (left.addresses ++ right.addresses)

def isOperator : Term → Bool
  | operator _ _ _ _ => true
  | _ => false

/-- An operator with one operand has none to the left. -/
def Arity : Term → Prop
  | operator _ op left right =>
      (op.isUnary = true → left = missing) ∧ left.Arity ∧ right.Arity
  | _ => True

/-- The cell of an operator. To the left, one with a single operand points to
itself. -/
def cell (parent : Option ℕ) (this : ℕ) (op : Operatortype)
    (left right : Term) : Node :=
  { Node.operator this parent op with
    leftchild := if op.isUnary then some this else left.root
    rightchild := right.root }

/-- The cells, below a parent. -/
def cells (parent : Option ℕ) : Term → List (ℕ × Node)
  | missing => []
  | operand this value => [(this, Node.ofOperand parent value)]
  | operator this op left right => (this, cell parent this op left right) ::
      (left.cells (some this) ++ right.cells (some this))

/-- Operators on values only. -/
def IsExpression : Term → Prop
  | missing => False
  | operand _ _ => True
  | operator _ op left right =>
      (op = .negation ∨ (op = .concatenation ∨ op = .addition ∨
        op = .subtraction ∨ op = .multiplication ∨ op = .division) ∧
          left.IsExpression) ∧ right.IsExpression

end Term

/-- The heap has the cells of the term. -/
structure Laid (h : Heap Node) (parent : Option ℕ) (t : Term) : Prop where
  cells : ∀ c ∈ t.cells parent, h.get c.1 = some c.2
  arity : t.Arity

/-- The lists of a query: the expressions of its INs, and the values that they
have been resolved to. -/
structure Lists where
  items : List Term
  inValues : List FieldValue

def Lists.addresses (l : Lists) : List ℕ := l.items.flatMap Term.addresses

/-- A query before its search: a tree and a list of expressions, in cells of
their own. -/
structure Prepared (w : State) (t : Term) (l : Lists) : Prop where
  laid : Laid w.heap none t
  expressionlist : w.expressionlist.map some = l.items.map Term.root
  items : ∀ i ∈ l.items, Laid w.heap none i ∧ i.IsExpression
  apart : (t.addresses ++ l.addresses).Nodup
  inValues : w.inValues = l.inValues
  inflight : w.inflight = 0

/-! ## What is to hold -/

/-- A call of `searchExpression` has not returned yet. -/
def Config.Calling : Config → Prop
  | .searching _ _ _ _ | .resolving _ _ | .resolved _ _ => True
  | _ => False

/-- Every call returns, and none is left standing: it has come to the end, or
there is a request for its node, the replies to which resume it there. -/
structure NeverStalls (s : Surroundings) (c : Config) : Prop where
  returns : ∀ k, ∃ n, ¬ ((step s)^[k + n] c).Calling
  resumed : ∀ k why, (step s)^[k] c ≠ .stopped why

/-- Whatever locks the rows are under. -/
def Searches (s : Surroundings) (w : State) (astNode : ℕ)
    (caller : Caller) : Prop :=
  ∀ returnRows, NeverStalls { s with returnRows := returnRows }
    (.searching w astNode none caller)

/-! ## Operators on values -/

/-- What an operator on values does with its operands. -/
inductive Applied
  | value (operand : Bytes)
  | mismatch
  | trap

def Applied.toOption : Applied → Option Bytes
  | value operand => some operand
  | mismatch | trap => none

/-- An operand that stands for itself, or the parameter that it stands for. -/
def supplied (parameters : List Bytes) (v : Bytes) : Option Bytes :=
  if operandType v = operandParameter then parameters[(integerOf v).toNat]?
  else some v

/-- Two integers, or two floats. If one of them is a float, `toFloat` has been
applied to both. -/
def calculated (ld : LongDouble) (op : Assignop) (left right : Bytes) :
    Applied :=
  if operandType left = operandInteger ∧
      operandType right = operandInteger then
    match op.integer (integerOf left) (integerOf right) with
    | some val => .value (integerOperand val)
    | none => .trap
  else if operandType left = operandFloat ∧
      operandType right = operandFloat then
    match op.floating ld (floatOf left) (floatOf right) with
    | some val => .value (Ast.floatResult ld [] val)
    | none => .trap
  else .mismatch

/-- `toFloat` of both operands, if one is a float. -/
def floated (left right : Bytes) : Bytes × Bytes :=
  if operandType left = operandFloat ∨ operandType right = operandFloat then
    (toFloatOperand left, toFloatOperand right)
  else (left, right)

def arithmetic (ld : LongDouble) (op : Assignop) (left right : Bytes) :
    Applied :=
  calculated ld op (floated left right).1 (floated left right).2

def negated (ld : LongDouble) (right : Bytes) : Applied :=
  if operandType right = operandInteger then
    .value (integerOperand (0 - integerOf right))
  else if operandType right = operandFloat then
    .value (Ast.floatResult ld [] (ld.sub 0#128 (floatOf right)))
  else .mismatch

def applied (ld : LongDouble) (op : Operatortype) (left right : Bytes) :
    Applied :=
  match op with
  | .concatenation =>
      if operandType left = operandString ∧ operandType right = operandString
      then .value (operandString :: (left.drop 1 ++ right.drop 1))
      else .mismatch
  | .addition => arithmetic ld .addition left right
  | .subtraction => arithmetic ld .subtraction left right
  | .multiplication => arithmetic ld .multiplication left right
  | .division => arithmetic ld .division left right
  | .negation => negated ld right
  | .betweenand =>
      match betweenand left right with
      | some operand => .value operand
      | none => .mismatch
  | _ => .trap

/-- What an operator comes to, given what its operands come to. -/
abbrev Exec := ℕ → Operatortype → Bytes → Bytes → Lists →
  Option (Bytes × Lists)

/-- What the term comes to, the left operand before the right one. -/
def Term.comes (parameters : List Bytes) (exec : Exec) :
    Term → Lists → Option (Bytes × Lists)
  | missing, _ => none
  | operand _ v, l => (supplied parameters v).map (·, l)
  | operator this op left right, l =>
      (if op.isUnary then some ([], l)
        else left.comes parameters exec l).bind fun (lv, l) =>
          (right.comes parameters exec l).bind fun (rv, l) =>
            exec this op lv rv l

/-- What the operands of an operator come to. -/
def both (parameters : List Bytes) (exec : Exec) (op : Operatortype)
    (left right : Term) (l : Lists) : Option (Bytes × Bytes × Lists) :=
  (if op.isUnary then some ([], l) else left.comes parameters exec l).bind
    fun (lv, l) => (right.comes parameters exec l).map fun (rv, l) =>
      (lv, rv, l)

def execValue (ld : LongDouble) : Exec := fun _ op left right l =>
  (applied ld op left right).toOption.map (·, l)

/-- What an operator at the root leaves there. One that cannot be applied is
left as it is, unless the search has been to an operator below it. -/
def Applied.left (nested : Prop) [Decidable nested] : Applied → Option Bytes
  | value operand => some operand
  | mismatch => if nested then none else some []
  | trap => none

/-- The operand at the root of an expression when its search has returned. -/
def Term.left (s : Surroundings) : Term → Option Bytes
  | missing => none
  | operand _ v => supplied s.parameters v
  | operator _ op left right =>
      (both s.parameters (execValue s.ld) op left right ⟨[], []⟩).bind
        fun (lv, rv, _) =>
          (applied s.ld op lv rv).left (left.isOperator ∨ right.isOperator)

/-! ## Predicates -/

/-- The engines find something. For a unique first field the engine that is
asked answers with rows, and may have none. -/
def Answered (s : Surroundings) (op : Operatortype) (fieldid : ℕ) (f : Field)
    (this : ℕ) : Prop :=
  match op with
  | .eq => f.type ≠ .nofieldtype ∧
      (fieldid = 0 ∧ f.indextype.isunique = true ∨ s.indexHits this 0 ≠ [])
  | .isnull => s.indexHits this 0 ≠ []
  | _ => ∃ i < s.numpartitions, s.indexHits this i ≠ []

instance (s : Surroundings) (op : Operatortype) (fieldid : ℕ) (f : Field)
    (this : ℕ) : Decidable (Answered s op fieldid f this) :=
  match op with
  | .eq => inferInstanceAs (Decidable (_ ∧ _))
  | .isnull => inferInstanceAs (Decidable (_ ≠ _))
  | .concatenation | .addition | .subtraction | .multiplication | .division
  | .negation | .and | .or | .not | .true | .false | .unknown | .ne | .lt | .gt
  | .lte | .gte | .between | .in | .like | .exists | .unique | .betweenand
  | .notbetween | .isnotnull | .notin | .notlike | .regex | .null =>
      inferInstanceAs (Decidable (∃ i < _, _))

/-- The predicate is about a field of the table, its right operand is of a type
that the field can be compared with, and there are engines to be asked, which
find something. -/
def Asks (s : Surroundings) (op : Operatortype) (this : ℕ)
    (left right : Bytes) : Prop :=
  operandType left = operandFieldid ∧
    searchParams op right = .ready ∧ 0 < s.numpartitions ∧
    ∃ f ∈ s.fields[(integerOf left).toNat]?,
      Answered s op (integerOf left).toNat f this

instance (s : Surroundings) (op : Operatortype) (this : ℕ)
    (left right : Bytes) : Decidable (Asks s op this left right) :=
  inferInstanceAs (Decidable (_ ∧ _))

/-- Nothing is pending in the transaction when the search begins. -/
def Idle (s : Surroundings) (w : State) : Prop :=
  w.pendingcmd = false ∧ s.lockpendingcount = 0

instance (s : Surroundings) (w : State) : Decidable (Idle s w) :=
  inferInstanceAs (Decidable (_ ∧ _))

/-- The values of a list, of the field's type. -/
def itemValues (s : Surroundings) (f : Field) (items : List Term) :
    Option (List FieldValue) :=
  items.mapM fun i => (i.left s).bind (inValue f)

/-- The staged rows, for the operands of a predicate. -/
def hit (s : Surroundings) (op : Operatortype) (left right : Bytes)
    (l : Lists) : Option Bool :=
  (Ref.Statement.stagedPredicate s.fields (operatortype op) s.tableid left
    right l.inValues s.stagedRows fun _ => none).map Prod.fst

def execPredicate (s : Surroundings) (idle : Prop) [Decidable idle]
    (this : ℕ) (op : Operatortype) (left right : Bytes) (l : Lists) :
    Option (Bytes × Lists) :=
  (hit s op left right l).bind fun equalhit =>
    if op = .eq ∧ equalhit ∨ idle ∧ Asks s op this left right then
      some ([], l)
    else none

def execNull (s : Surroundings) (idle : Prop) [Decidable idle]
    (this : ℕ) (op : Operatortype) (right : Bytes) (l : Lists) :
    Option (Bytes × Lists) :=
  (hit s op [] right l).bind fun _ =>
    if idle ∧ Asks s op this right right then some ([], l) else none

def execIn (s : Surroundings) (idle : Prop) [Decidable idle]
    (this : ℕ) (op : Operatortype) (right : Bytes) (l : Lists) :
    Option (Bytes × Lists) :=
  (hit s op [] right l).bind fun _ =>
    (s.fields[(integerOf right).toNat]?).bind fun f =>
      (itemValues s f l.items).bind fun values =>
        if idle ∧ Asks s op this right right then
          some ([], ⟨[], l.inValues ++ values⟩)
        else none

/-- All operators, where they are below another one. -/
def exec (s : Surroundings) (idle : Prop) [Decidable idle] : Exec :=
  fun this op left right l =>
    match op with
    | .and | .or | .not | .true | .false | .unknown => some ([], l)
    | .eq | .ne | .lt | .gt | .lte | .gte | .between | .notbetween | .like
    | .notlike => execPredicate s idle this op left right l
    | .isnull | .isnotnull => execNull s idle this op right l
    | .in | .notin => execIn s idle this op right l
    | .exists | .unique | .regex | .null => none
    | .concatenation | .addition | .subtraction | .multiplication | .division
    | .negation | .betweenand => execValue s.ld this op left right l

/-! ## Conditions -/

/-- At the root of a condition, with the operands that have been evaluated. An
operator that has been left out of the program must have an operator below it. A
concatenation may be of what was no string from the beginning. -/
def AtRoot (s : Surroundings) (idle : Prop) [Decidable idle] (this : ℕ)
    (op : Operatortype) (left right : Term) (lv rv : Bytes) (l : Lists) :
    Prop :=
  match op with
  | .not | .true | .false | .unknown => right.isOperator = true
  | .regex | .null => True
  | .concatenation => (exec s idle this .concatenation lv rv l).isSome ∨
      left.isOperator = false ∧ right.isOperator = false
  | op => (exec s idle this op lv rv l).isSome

/-- A condition comes to an end. -/
def Sound (s : Surroundings) (idle : Prop) [Decidable idle] (l : Lists) :
    Term → Prop
  | .missing => False
  | .operand _ v => (supplied s.parameters v).isSome
  | .operator this op left right =>
      ∃ lv rv l', both s.parameters (exec s idle) op left right l =
          some (lv, rv, l') ∧
        AtRoot s idle this op left right lv rv l'

end Infinisql.Conditions
