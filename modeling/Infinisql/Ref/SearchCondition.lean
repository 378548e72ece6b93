import Infinisql.Ref.LockQueue
import Infinisql.Ref.StagedPredicate
import Infinisql.Ref.AstNodes

/-!
# Searching for rows

`searchExpression` with all operators, and what makes it stop on the way and
start again. A predicate asks the engines: `sqlPredicate` sends the requests and
notes the node, `evaluate` returns false and names no node, and the loop
returns. When the last reply has come `continueSqlPredicate` calls
`searchExpression` for that node once more. Replies come in two rounds: index
entries, then rows.

`step` is a call of `evaluate` or the arrival of a reply. The list of an IN is
resolved inside a call of `evaluate` by calls of `searchExpression` for each of
its expressions; `Caller` says to whom a call returns.

`Ref.AstNodes` has what `evaluate` does with operators on values. Of
`predicateResults` nothing here depends, and they are left out, as are the
contents of the messages: there are as many replies as messages, and what is in
them is given. That an IN may have a subquery for a list is left out too, since
`issubquery` is never set, `sane_queries`. Bytes behind the end of an operand
read as zero; where the length of a string is read there, nothing is known.
-/

namespace Infinisql.Conditions

open Infinisql.Ref (Bytes Field FieldInput FieldValue LongDouble
  NonLockingIndexEntry StagedRow UuRecord integerOf operandBoolean
  operandFieldid operandFloat operandInteger operandNull operandParameter
  operandString operandType floatOf integerOperand toFloat)
open Infinisql.Ref.Statement (stagedPredicate)
open Infinisql.Queues (Locktype)
open Infinisql.Asts (Node Operatortype Outcome becomeOperand operandSubquery
  prepare resolveParameter)
open Infinisql.Lib

/-! ## State -/

/-- What a search is given: the parameters of the statement, the table of the
query, what the transaction has staged, and the replies that will come, for the
node that asks and by the order in which they come. What is supplied for a
parameter is a value. -/
structure Surroundings where
  parameters : List Bytes
  supplied : ∀ v ∈ parameters, operandType v ≠ operandParameter
  ld : LongDouble
  fields : List Field
  tableid : Int
  stagedRows : List (UuRecord × StagedRow)
  numpartitions : ℕ
  lockpendingcount : ℕ
  indexHits : ℕ → ℕ → List NonLockingIndexEntry
  returnRows : ℕ → ℕ → List Locktype

/-- `sqlcmdstate_s`. -/
structure Sqlcmdstate where
  continuationData : ℕ := 0
  eventwaitcount : ℕ := 0
  indexHits : List NonLockingIndexEntry := []

/-- Where a reply is taken up, `tacmdentrypoint`. -/
inductive Entrypoint
  | one
  | two
  deriving DecidableEq

/-- The query's trees and lists, and the part of the transaction that a search
uses. `inflight` counts the messages that no reply has come to yet. -/
structure State where
  heap : Heap Node
  expressionlist : List ℕ
  inValues : List FieldValue
  pendingcmd : Bool
  sqlcmdstate : Sqlcmdstate
  tacmdentrypoint : Entrypoint
  inflight : ℕ

/-- `sendTransaction`, to so many engines. -/
def State.send (w : State) (entrypoint : Entrypoint) (n : ℕ) : State :=
  { w with
    sqlcmdstate := { w.sqlcmdstate with eventwaitcount := n }
    tacmdentrypoint := entrypoint
    inflight := n }

/-! ## `sqlPredicate` -/

/-- As `Ref.StagedPredicate` has them. -/
def operatortype : Operatortype → Ref.Operatortype
  | .ne => .ne
  | .lt => .lt
  | .gt => .gt
  | .lte => .lte
  | .gte => .gte
  | .between => .between
  | .notbetween => .notbetween
  | .isnull => .isnull
  | .isnotnull => .isnotnull
  | .in => .in
  | .notin => .notin
  | .like => .like
  | .notlike => .notlike
  | .regex => .regex
  | _ => .eq

/-- What becomes of the right operand: `searchParams`, or a return. With a
string for BETWEEN the length of the first of the two is read. -/
inductive Params
  | ready
  | returns
  | trapped
  deriving DecidableEq

/-- The right operand of BETWEEN. -/
def betweenParams (rightoperand : Bytes) : Params :=
  if operandType rightoperand = operandString then
    if rightoperand.length < 9 ∨
        rightoperand.length < 9 + (integerOf rightoperand).toNat then .trapped
    else .ready
  else if operandType rightoperand = operandInteger ∨
      operandType rightoperand = operandFloat then .ready
  else .returns

/-- The `switch` on the operator. -/
def searchParams (op : Operatortype) (rightoperand : Bytes) : Params :=
  match op with
  | .between | .notbetween => betweenParams rightoperand
  | .in | .notin | .isnull | .isnotnull => .ready
  | _ =>
      if operandType rightoperand = operandString ∨
          operandType rightoperand = operandInteger ∨
          operandType rightoperand = operandBoolean ∨
          operandType rightoperand = operandFloat then .ready
      else .returns

/-- The messages. A single engine is found by a remainder, of the value's hash
or of the field's id, which traps where there are no engines. -/
def sendPredicate (s : Surroundings) (op : Operatortype) (fieldid : ℕ)
    (f : Field) (w : State) : Option State :=
  match op with
  | .eq =>
      if f.type = .nofieldtype then
        some { w with
          sqlcmdstate := { w.sqlcmdstate with eventwaitcount := 1 } }
      else if s.numpartitions = 0 then none
      else if fieldid = 0 ∧ f.indextype.isunique then some (w.send .two 1)
      else some (w.send .one 1)
  | .isnull =>
      if s.numpartitions = 0 then none else some (w.send .one 1)
  | _ => some (w.send .one s.numpartitions)

/-- `sqlPredicate`. With a command pending the search goes on at once, and at
its end deletes the node that is being evaluated. -/
def sqlPredicate (s : Surroundings) (op : Operatortype)
    (leftoperand rightoperand : Bytes) (continuationData : ℕ) (w : State) :
    Option State :=
  let w := { w with sqlcmdstate := { continuationData := continuationData } }
  if w.pendingcmd then none
  else
    let w := { w with pendingcmd := true }
    let fieldidoperand :=
      if op = .isnull ∨ op = .isnotnull then rightoperand else leftoperand
    if operandType fieldidoperand ≠ operandFieldid then some w
    else
      let fieldid := (integerOf fieldidoperand).toNat
      match s.fields[fieldid]? with
      | none => none
      | some f =>
          match searchParams op rightoperand with
          | .trapped => none
          | .returns => some w
          | .ready => sendPredicate s op fieldid f w

/-! ## `evaluate` -/

/-- For a node that is an operator `subqueryScalar` returns at once: its own
operand is no subquery's. The results of subqueries are not given here. -/
def subqueryScalar (h : Heap Node) (this : ℕ) : Option (Heap Node) :=
  match h.get this with
  | none => none
  | some n => if operandType n.operand ≠ operandSubquery then some h else none

/-- For the operators on values. -/
def Surroundings.values (s : Surroundings) : Asts.Surroundings where
  parameters := s.parameters
  ld := s.ld
  subqueryScalar := subqueryScalar
  predicate := fun _ _ _ => none

/-- A call of `evaluate` returns, or it has come to the list of an IN. -/
inductive Call
  | returned (w : State) (out : Outcome)
  | inlist (w : State)

/-- The children of an operator, and the operands there. -/
structure Operands where
  leftchild : ℕ
  rightchild : ℕ
  leftoperand : Bytes
  rightoperand : Bytes

def operands (h : Heap Node) (n : Node) : Option Operands :=
  match n.leftchild, n.rightchild with
  | some l, some r =>
      match h.get l, h.get r with
      | some ln, some rn => some ⟨l, r, ln.operand, rn.operand⟩
      | _, _ => none
  | _, _ => none

/-- An operator with one child becomes an operand. -/
def becomeUnary (h : Heap Node) (this r : ℕ) : Heap Node :=
  (h.modify this fun n =>
    { n with
      isoperator := false
      rightchild := none }).free r

/-- `stagedPredicate`: whether it has hit the row already. -/
def staged (s : Surroundings) (op : Operatortype) (o : Operands) (w : State) :
    Option Bool :=
  (stagedPredicate s.fields (operatortype op) s.tableid o.leftoperand
    o.rightoperand w.inValues s.stagedRows fun _ => none).map Prod.fst

/-- The predicates with two operands. An equality that has been hit does not
ask the engines. -/
def binaryPredicate (s : Surroundings) (op : Operatortype) (w : State)
    (this : ℕ) (n : Node) (o : Operands) : Option Call :=
  match staged s op o w with
  | none => none
  | some equalhit =>
      let w := { w with
        heap := becomeOperand w.heap this o.leftchild o.rightchild n.operand }
      if op = .eq ∧ equalhit then some (.returned w ⟨true, some n.parent⟩)
      else
        (sqlPredicate s op o.leftoperand o.rightoperand this w).map
          fun w => .returned w ⟨false, some none⟩

/-- `OPERATOR_ISNULL` and `OPERATOR_ISNOTNULL`. The left operand is the
operator's own. -/
def nullPredicate (s : Surroundings) (op : Operatortype) (w : State)
    (this : ℕ) (o : Operands) : Option Call :=
  match staged s op o w with
  | none => none
  | some _ =>
      let w := { w with heap := becomeUnary w.heap this o.rightchild }
      (sqlPredicate s op o.rightoperand o.rightoperand this w).map
        fun w => .returned w ⟨false, some none⟩

/-- `OPERATOR_IN` and `OPERATOR_NOTIN`, up to the list. -/
def inPredicate (s : Surroundings) (op : Operatortype) (w : State) (this : ℕ)
    (o : Operands) : Option Call :=
  match staged s op o w with
  | none => none
  | some _ =>
      (s.fields[(integerOf o.rightoperand).toNat]?).map fun _ =>
        .inlist { w with
          heap := w.heap.modify this fun n => { n with isoperator := false } }

/-- `OPERATOR_BETWEENAND`: both operands in one, strings behind the length of
the first. -/
def betweenand (leftoperand rightoperand : Bytes) : Option Bytes :=
  if operandType leftoperand ≠ operandType rightoperand then none
  else if operandType leftoperand = operandInteger then
    some (operandInteger ::
      ((integerOperand (integerOf leftoperand)).drop 1 ++
        (integerOperand (integerOf rightoperand)).drop 1))
  else if operandType leftoperand = operandFloat then
    some (operandFloat :: ((floatOf leftoperand).toBytes 16 ++
      (floatOf rightoperand).toBytes 16))
  else if operandType leftoperand = operandString then
    some (operandString ::
      (FieldInput.toBytes (BitVec.ofNat 128 (leftoperand.drop 1).length) 8 ++
        (leftoperand.drop 1 ++ rightoperand.drop 1)))
  else none

/-- The `switch` on the operator. -/
def execute (s : Surroundings) (op : Operatortype) (w : State) (this : ℕ) :
    Option Call :=
  match w.heap.get this with
  | none => none
  | some n =>
      match operands w.heap n with
      | none => none
      | some o =>
          match op with
          | .concatenation | .addition | .subtraction | .multiplication
          | .division | .negation =>
              (Asts.execute s.values op w.heap this).map fun (h, out) =>
                .returned { w with heap := h } out
          | .and | .or =>
              some (.returned { w with
                heap := becomeOperand w.heap this o.leftchild o.rightchild
                  n.operand } ⟨true, some n.parent⟩)
          | .not | .true | .false | .unknown =>
              -- "not implemented": nothing is assigned
              some (.returned { w with
                heap := becomeUnary w.heap this o.rightchild } ⟨false, none⟩)
          | .eq | .ne | .lt | .gt | .lte | .gte | .between | .notbetween
          | .like | .notlike => binaryPredicate s op w this n o
          | .isnull | .isnotnull => nullPredicate s op w this o
          | .in | .notin => inPredicate s op w this o
          | .exists | .unique =>
              -- the number of the subquery is read from the operand of the
              -- operator, where there is none
              none
          | .betweenand =>
              match betweenand o.leftoperand o.rightoperand with
              | none => some (.returned w .mismatch)
              | some operand =>
                  some (.returned { w with
                    heap := becomeOperand w.heap this o.leftchild o.rightchild
                      operand } ⟨true, some n.parent⟩)
          | .regex | .null =>
              -- "anomaly": the node stays an operator
              some (.returned w ⟨true, some n.parent⟩)

/-- `this->evaluate(&nextAstNode, statementPtr)`. -/
def evaluate (s : Surroundings) (w : State) (this : ℕ) : Option Call :=
  match w.heap.get this with
  | none => none
  | some n =>
      if n.isoperator = false then
        (resolveParameter s.parameters w.heap this n.operand).map fun h =>
          .returned { w with heap := h } ⟨true, some n.parent⟩
      else
        match n.operatortype with
        | none => none
        | some op =>
            match (if op.isUnary then some (w.heap, none)
                else prepare s.values w.heap this n.leftchild) with
            | none => none
            | some (h, some l) =>
                some (.returned { w with heap := h } ⟨false, some (some l)⟩)
            | some (h, none) =>
                match prepare s.values h this n.rightchild with
                | none => none
                | some (h, some r) =>
                    some (.returned { w with heap := h } ⟨false, some (some r)⟩)
                | some (h, none) => execute s op { w with heap := h } this

/-! ## The list of an IN -/

/-- An expression of the list, as a value of the field. A string without its
first byte has no `substr(1)`. -/
def inValue (f : Field) (operand : Bytes) : Option FieldValue :=
  if operandType operand = operandNull then some { isnull := true }
  else
    let arg := operand.drop 1
    match f.type with
    | .int | .uint => some { value := .ofBytes (arg.take 8) }
    | .bool =>
        some { value := if integerOf operand = 0#64 then 0#128 else 1#128 }
    | .float => some { value := toFloat operand }
    | .char => some { value := .ofBytes (arg.take 1) }
    | .charx | .varchar => if operand = [] then none else some { str := arg }
    | .nofieldtype => some {}

/-- An expression has been searched: its value is noted, and it is deleted. -/
def pushValue (s : Surroundings) (w : State) (this : ℕ) : Option State :=
  match w.expressionlist with
  | [] => none
  | astRef :: expressionlist =>
      match w.heap.get this, w.heap.get astRef with
      | some n, some a =>
          match n.rightchild.bind w.heap.get with
          | none => none
          | some rn =>
              match s.fields[(integerOf rn.operand).toNat]? with
              | none => none
              | some f =>
                  (inValue f a.operand).map fun fieldValue =>
                    { w with
                      heap := w.heap.free astRef
                      expressionlist := expressionlist
                      inValues := w.inValues ++ [fieldValue] }
      | _, _ => none

/-- Behind the list the engines are asked. -/
def endIn (s : Surroundings) (w : State) (this : ℕ) : Option State :=
  match w.heap.get this with
  | none => none
  | some n =>
      match n.operatortype, n.rightchild with
      | some op, some r =>
          match w.heap.get r with
          | none => none
          | some rn =>
              sqlPredicate s op rn.operand rn.operand this { w with
                heap := becomeUnary w.heap this r }
      | _, _ => none

/-! ## `searchExpression` -/

/-- Who has called: `startQuery` or `continueSqlPredicate` with entry point 1,
`branchtotype` for a value to be inserted, or `evaluate` for the list of that
IN, both with 0. -/
inductive Caller
  | statement
  | insert
  | inlist (this : ℕ)

/-- Why a search does not get any further: the program has been stopped; a call
has returned and nothing will resume it at the node; or a reply has not resumed
it. -/
inductive Stop
  | trapped
  | stalled
  | misled

inductive Config
  /-- `evaluate` is called next. -/
  | searching (w : State) (astNode : ℕ) (nextAstNode : Option ℕ)
      (caller : Caller)
  /-- The list of an IN is gone over. -/
  | resolving (w : State) (astNode : ℕ)
  /-- The search of one of its expressions has returned. -/
  | resolved (w : State) (astNode : ℕ)
  /-- The call has returned with messages sent, and so many replies have
  come. -/
  | waiting (w : State) (arrived : ℕ)
  /-- The statement goes on. -/
  | continued
  | aborted
  | stopped (why : Stop)

/-- The root has been evaluated. -/
def finish (w : State) : Caller → Config
  | .statement | .insert => .continued
  | .inlist this => .resolved w this

/-- There is a request for the node: replies are to come, all of them are
waited for, and the last one will go back to it. -/
def Outstanding (w : State) (astNode : ℕ) : Prop :=
  w.pendingcmd = true ∧ 0 < w.inflight ∧
    w.sqlcmdstate.eventwaitcount = w.inflight ∧
    w.sqlcmdstate.continuationData = astNode

instance (w : State) (astNode : ℕ) : Decidable (Outstanding w astNode) :=
  inferInstanceAs (Decidable (_ ∧ _))

/-- The loop returns with a node that has not been evaluated. -/
def leave (w : State) (astNode : ℕ) : Caller → Config
  | .statement =>
      if Outstanding w astNode then .waiting w 0 else .stopped .stalled
  | .insert => .continued
  | .inlist this => .resolved w this

/-- After a call of `evaluate`. That an IN is in a list itself, or in a value
that is to be inserted, the grammar does not allow. -/
def proceed (nextAstNode : Option ℕ) (caller : Caller) (astNode : ℕ) :
    Option Call → Config
  | none => .stopped .trapped
  | some (.inlist w) =>
      match caller with
      | .statement => .resolving w astNode
      | _ => .stopped .trapped
  | some (.returned w out) =>
      match out.nextAstNode.getD nextAstNode with
      | none => if out.result then finish w caller else leave w astNode caller
      | some next => .searching w next (some next) caller

/-! ## `continueSqlPredicate` -/

/-- The engines that have rows of the hits. -/
def payloads (indexHits : List NonLockingIndexEntry) : List Int :=
  (indexHits.map NonLockingIndexEntry.engineid).dedup

/-- Entry point 1. Where there is no hit the pending command is cleared before
it is looked at, and the statement goes on at `continueSelect`. -/
def takeHits (indexHits : List NonLockingIndexEntry) (arrived : ℕ)
    (w : State) : Config :=
  let hits := w.sqlcmdstate.indexHits ++ indexHits
  let w := { w with
    sqlcmdstate := { w.sqlcmdstate with
      indexHits := hits
      eventwaitcount := w.sqlcmdstate.eventwaitcount - 1 }
    inflight := w.inflight - 1 }
  if w.sqlcmdstate.eventwaitcount = 0 then
    match hits with
    | [] => .stopped .misled
    | [_] => .waiting (w.send .two 1) 0
    | hits => .waiting (w.send .two (payloads hits).length) 0
  else .waiting w (arrived + 1)

/-- A row that is waited for aborts the query. -/
def isPending (locktype : Locktype) : Bool :=
  locktype = .pendinglock ∨ locktype = .pendingtowritelock ∨
    locktype = .pendingtoreadlock ∨ locktype = .pendingtonolock

/-- Entry point 2. -/
def takeRows (s : Surroundings) (returnRows : List Locktype) (arrived : ℕ)
    (w : State) : Config :=
  let w := { w with inflight := w.inflight - 1 }
  if returnRows.any isPending then .aborted
  else
    let w := { w with
      sqlcmdstate := { w.sqlcmdstate with
        eventwaitcount := w.sqlcmdstate.eventwaitcount - 1 } }
    if w.sqlcmdstate.eventwaitcount = 0 ∧ s.lockpendingcount = 0 then
      .searching { w with pendingcmd := false } w.sqlcmdstate.continuationData
        none .statement
    else .waiting w (arrived + 1)

/-- `continueSqlPredicate`, with the next reply. When none is in flight none
comes. -/
def continueSqlPredicate (s : Surroundings) (w : State) (arrived : ℕ) :
    Config :=
  if w.inflight = 0 then .stopped .stalled
  else
    match w.tacmdentrypoint with
    | .one =>
        takeHits (s.indexHits w.sqlcmdstate.continuationData arrived) arrived w
    | .two =>
        takeRows s (s.returnRows w.sqlcmdstate.continuationData arrived)
          arrived w

/-! ## Steps -/

/-- A call of `evaluate`, or a reply. -/
def step (s : Surroundings) : Config → Config
  | .searching w astNode nextAstNode caller =>
      proceed nextAstNode caller astNode (evaluate s w astNode)
  | .resolving w astNode =>
      match w.expressionlist with
      | astRef :: _ => .searching w astRef none (.inlist astNode)
      | [] =>
          match endIn s w astNode with
          | none => .stopped .trapped
          | some w => leave w astNode .statement
  | .resolved w astNode =>
      match pushValue s w astNode with
      | none => .stopped .trapped
      | some w => .resolving w astNode
  | .waiting w arrived => continueSqlPredicate s w arrived
  | c => c

end Infinisql.Conditions
