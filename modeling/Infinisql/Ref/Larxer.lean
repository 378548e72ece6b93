import Infinisql.Ref.AstNodes

/-!
# From the parser's stack to the queries

The actions of the grammar push what they have read on a stack, operands
before their operators. `eatstack` takes it down again and makes of it the
list of queries that the statement runs: the first is the statement itself,
and each subquery is appended where the walk comes upon it, so that it has a
higher number than the query it occurs in. That number is packed into the
operand that stands for the subquery.

The routines call each other, down to `consumeExpression` and back. What they
have of one another is passed as an argument here, and all loops run on fuel:
every round takes an item off the stack, so that the height of the stack is
enough.

A tree under construction is the node being filled with those above it. A node
is given its right child first. A NULL pointer is the tree `null`; the pointer
of a unary operator to itself is not a child, and the left side of one counts
as filled.

Where the source takes an item off an empty stack, or the second byte of an
empty string, a routine has no result.
-/

namespace Infinisql.Larx

open Infinisql.Ref (Bytes FieldInput Locktype operandType integerOperand)
open Infinisql.Asts (Operatortype operandSubquery operandIdentifier)

/-! ## The stack -/

/-- `stackmember_s`. -/
inductive StackMember
  | typeSelect (columns : ℕ)
  | typeInsert
  | typeUpdate
  | typeDelete
  | typeColumns (columns : ℕ)
  | typeAsterisk
  | typeDistinct
  | typeAll
  | typeFrom
  | typeWhere
  | typeSearchCondition
  | typeGroupby
  | typeHaving
  | typeForupdate
  | typeNolock
  | typeAsc
  | typeDesc
  | typeSortspecification
  | typeOrderby
  | typeExpression
  | typeInbegin
  | typeInobject
  | typeAssignment
  | typeSubquery
  | typeOperator (op : Operatortype)
  | typeOperand (val : Bytes)
  deriving DecidableEq

/-- The number of an operator. -/
def operatorCode : Operatortype → ℕ
  | .concatenation => 1
  | .addition => 2
  | .subtraction => 3
  | .multiplication => 4
  | .division => 5
  | .negation => 7
  | .and => 8
  | .or => 9
  | .not => 10
  | .true => 11
  | .false => 12
  | .unknown => 13
  | .eq => 14
  | .ne => 15
  | .lt => 16
  | .gt => 17
  | .lte => 18
  | .gte => 19
  | .between => 20
  | .isnull => 21
  | .in => 22
  | .like => 23
  | .exists => 24
  | .unique => 25
  | .betweenand => 26
  | .notbetween => 27
  | .isnotnull => 28
  | .notin => 29
  | .notlike => 30
  | .regex => 31
  | .null => 33

/-- An `int64_t` in memory. -/
def int64Bytes (n : BitVec 64) : Bytes := FieldInput.toBytes (n.setWidth 128) 8

/-- `val`. -/
def StackMember.val : StackMember → Bytes
  | .typeSelect columns => int64Bytes (BitVec.ofNat 64 columns)
  | .typeColumns columns => int64Bytes (BitVec.ofNat 64 columns)
  | .typeOperator op => int64Bytes (BitVec.ofNat 64 (operatorCode op))
  | .typeOperand val => val
  | _ => []

/-! ## Trees and queries -/

inductive Tree
  | null
  | operand (operand : Bytes)
  | operator (operatortype : Operatortype) (leftchild rightchild : Tree)
  deriving DecidableEq

/-- `cmd_e`, as far as a query is given one. -/
inductive Cmd
  | nocommand
  | select
  | insert
  | update
  | delete
  deriving DecidableEq

/-- `inobject_s`. -/
structure Inobject where
  issubquery : Bool := false
  subquery : ℤ := 0
  expressionlist : List Tree := []
  deriving DecidableEq

/-- `query_s`, without what resolving the names and running it will add. -/
structure Query where
  type : Cmd := .nocommand
  isforupdate : Bool := false
  hasnolock : Bool := false
  haswhere : Bool := false
  hasgroupby : Bool := false
  hashaving : Bool := false
  hasorderby : Bool := false
  table : Bytes := []
  locktype : Locktype := .noLock
  groupByList : List Bytes := []
  fromColumns : List Bytes := []
  orderbylist : List (Bool × Bytes) := []
  inobject : Inobject := {}
  searchCondition : Tree := .null
  assignments : List (Bytes × Tree) := []
  insertColumns : List Tree := []
  deriving DecidableEq

/-- `class Larxer` with the queries of its statement. -/
structure Larxer where
  parsedStack : List StackMember
  queries : List Query
  currentQuery : ℕ
  deriving DecidableEq

/-- A write through `currentQuery`. -/
def Larxer.modify (l : Larxer) (f : Query → Query) : Larxer :=
  { l with queries := l.queries.modify l.currentQuery f }

/-! ## The parts of a query without expressions -/

/-- `consumeFrom`. -/
def consumeFrom (l : Larxer) : Larxer :=
  match l.parsedStack with
  | [] => l
  | .typeOperand val :: stack =>
      { l with parsedStack := stack }.modify
        fun q => { q with table := val.drop 1 }
  | _ :: stack => { l with parsedStack := stack }

/-- The loop of `consumeColumns`: what is pushed back, and the stack. -/
def columnsLoop : ℕ → List StackMember → List Bytes × List StackMember
  | 0, stack => ([], stack)
  | _ + 1, [] => ([], [])
  | n + 1, .typeAsterisk :: stack =>
      let (columns, stack) := columnsLoop n stack
      ([42] :: columns, stack)
  | n + 1, .typeOperand val :: stack =>
      let (columns, stack) := columnsLoop n stack
      (val :: columns, stack)
  | n + 1, _ :: stack => columnsLoop n stack

def consumeColumns (numcolumns : ℕ) (l : Larxer) : Larxer :=
  let (columns, stack) := columnsLoop numcolumns l.parsedStack
  { l with parsedStack := stack }.modify
    fun q => { q with fromColumns := q.fromColumns ++ columns }

/-- The loop of `consumeGroupby`. An operand that is no identifier ends it,
and is gone. -/
def groupbyLoop : List StackMember → List Bytes × List StackMember
  | [] => ([], [])
  | .typeOperand val :: stack =>
      if operandType val = operandIdentifier then
        let (names, stack) := groupbyLoop stack
        (val.drop 1 :: names, stack)
      else ([], stack)
  | item :: stack => ([], item :: stack)

def consumeGroupby (l : Larxer) : Larxer :=
  let (names, stack) := groupbyLoop l.parsedStack
  { l with parsedStack := stack }.modify
    fun q =>
      { q with hasgroupby := true, groupByList := q.groupByList ++ names }

/-- The loop of `consumeOrderby`. The direction is looked for in the item
below the one that has it. -/
def orderbyLoop :
    List StackMember → Option (List (Bool × Bytes) × List StackMember)
  | [] => none
  | .typeSortspecification :: item :: item2 :: stack =>
      (orderbyLoop stack).map fun (items, stack) =>
        ((decide (item2 = .typeAsc), item.val) :: items, stack)
  | [.typeSortspecification] => none
  | [.typeSortspecification, _] => none
  | item :: stack => some ([], item :: stack)

def consumeOrderby (l : Larxer) : Option Larxer :=
  (orderbyLoop l.parsedStack).map fun (items, stack) =>
    { l with parsedStack := stack }.modify
      fun q =>
        { q with hasorderby := true, orderbylist := q.orderbylist ++ items }

/-! ## Queries around expressions -/

/-- What `consumeExpression` is to its callers. -/
abbrev Consume := Larxer → Option (Tree × Larxer)

/-- `consumeWhere` and `consumeHaving`, which differ in what they note. -/
def consumeCondition (note : Query → Query) (expression : Consume)
    (l : Larxer) : Option Larxer :=
  let l := l.modify note
  match l.parsedStack with
  | [] => some l
  | .typeSearchCondition :: stack =>
      (expression { l with parsedStack := stack }).map fun (tree, l) =>
        l.modify fun q => { q with searchCondition := tree }
  | _ :: stack => some { l with parsedStack := stack }

def consumeWhere : Consume → Larxer → Option Larxer :=
  consumeCondition fun q => { q with haswhere := true }

def consumeHaving : Consume → Larxer → Option Larxer :=
  consumeCondition fun q => { q with hashaving := true }

/-- The end of a SELECT. Of the three assignments to `locktype` the last
lacks its `else`. -/
def endSelect (columns : ℕ) (l : Larxer) : Larxer :=
  (consumeColumns columns l).modify fun q => { q with locktype := .readLock }

/-- The loop of `consumeSelect`. -/
def selectLoop (expression : Consume) (columns : ℕ) :
    ℕ → Larxer → Option Larxer
  | 0, _ => none
  | fuel + 1, l =>
      match l.parsedStack with
      | [] => some l
      | item :: stack =>
          let l := { l with parsedStack := stack }
          match item with
          | .typeColumns _ => some (endSelect columns l)
          | .typeFrom => selectLoop expression columns fuel (consumeFrom l)
          | .typeWhere =>
              (consumeWhere expression l).bind
                (selectLoop expression columns fuel)
          | .typeGroupby =>
              selectLoop expression columns fuel (consumeGroupby l)
          | .typeHaving =>
              (consumeHaving expression l).bind
                (selectLoop expression columns fuel)
          | .typeForupdate =>
              selectLoop expression columns fuel
                (l.modify fun q => { q with isforupdate := true })
          | .typeNolock =>
              selectLoop expression columns fuel
                (l.modify fun q => { q with hasnolock := true })
          | .typeOrderby =>
              (consumeOrderby l).bind (selectLoop expression columns fuel)
          | _ => selectLoop expression columns fuel l

def consumeSelect (expression : Consume) (fuel columns : ℕ) (l : Larxer) :
    Option Larxer :=
  selectLoop expression columns fuel
    (l.modify fun q => { q with type := .select })

/-- `consumeSubquery`. If no SELECT is on the stack the new query stays the
current one. -/
def consumeSubquery (expression : Consume) (fuel : ℕ) (l : Larxer) :
    Option (ℤ × Larxer) :=
  let i := l.queries.length
  match l.parsedStack with
  | [] => none
  | .typeSelect columns :: stack =>
      (consumeSelect expression fuel columns
        ⟨stack, l.queries ++ [{}], i⟩).map fun l' =>
          (i, { l' with currentQuery := l.currentQuery })
  | _ :: stack => some (-2, ⟨stack, l.queries ++ [{}], i⟩)

/-- The loop of `consumeInobject`. -/
def inobjectLoop (expression : Consume) : ℕ → Larxer → Option Larxer
  | 0, _ => none
  | fuel + 1, l =>
      match l.parsedStack with
      | [] => none
      | .typeExpression :: stack =>
          (expression { l with parsedStack := stack }).bind fun (tree, l) =>
            inobjectLoop expression fuel
              (l.modify fun q =>
                { q with inobject.expressionlist :=
                    q.inobject.expressionlist ++ [tree] })
      | _ => some l

def consumeInobject (expression : Consume) (fuel : ℕ) (l : Larxer) :
    Option Larxer :=
  match l.parsedStack with
  | [] => none
  | .typeSubquery :: stack =>
      (consumeSubquery expression fuel
        ({ l with parsedStack := stack }.modify fun q =>
          { q with inobject.issubquery := true })).map fun (sq, l) =>
            l.modify fun q => { q with inobject.subquery := sq }
  | _ =>
      inobjectLoop expression fuel
        (l.modify fun q => { q with inobject.issubquery := false })

/-! ## Expressions -/

/-- A node that still lacks a child. -/
structure Open where
  operatortype : Operatortype
  leftchild : Tree
  rightchild : Tree

namespace Open

/-- `Ast(parent, operatortype)`. -/
def new (op : Operatortype) : Open := ⟨op, .null, .null⟩

def tree (n : Open) : Tree := .operator n.operatortype n.leftchild n.rightchild

def full (n : Open) : Bool :=
  n.rightchild ≠ .null && (n.operatortype.isUnary || n.leftchild ≠ .null)

/-- A new child: to the right, or else to the left. -/
def put (n : Open) (child : Tree) : Open :=
  if n.rightchild = .null then { n with rightchild := child }
  else { n with leftchild := child }

end Open

/-- From the current node, up to one that has room; or the root, if there is
none. -/
def climb : Open → List Open → Tree ⊕ (Open × List Open)
  | n, [] => if n.full then .inl n.tree else .inr (n, [])
  | n, parent :: rest =>
      if n.full then climb (parent.put n.tree) rest
      else .inr (n, parent :: rest)

/-- `rootnode`, whatever it still lacks. -/
def rootnode : Open → List Open → Tree
  | n, [] => n.tree
  | n, parent :: rest => rootnode (parent.put n.tree) rest

/-- The operand of a subquery, once its number is known: eight bytes are
appended, and the number is copied behind the first byte. -/
def subqueryOperand (val : Bytes) (sq : ℤ) : Bytes :=
  val.take 1 ++ int64Bytes (BitVec.ofInt 64 sq) ++
    (val.drop 1 ++ List.replicate 8 0).drop 8

/-- How `consumeExpression` begins. A single operand is a tree, and nothing
more is done for it. -/
def beginExpression
    (loop : Larxer → Open → List Open → Option (Tree × Larxer))
    (item : StackMember) (l : Larxer) : Option (Tree × Larxer) :=
  match item with
  | .typeOperator op => loop l (Open.new op) []
  | .typeOperand val => some (.operand val, l)
  | item => some (.null, { l with parsedStack := item :: l.parsedStack })

def expressionFrom
    (loop : Larxer → Open → List Open → Option (Tree × Larxer))
    (l : Larxer) : Option (Tree × Larxer) :=
  match l.parsedStack with
  | [] => some (.null, l)
  | [.typeExpression] => none
  | .typeExpression :: item :: stack =>
      beginExpression loop item { l with parsedStack := stack }
  | item :: stack => beginExpression loop item { l with parsedStack := stack }

/-- The loop of `consumeExpression`. -/
def expressionLoop :
    ℕ → Larxer → Open → List Open → Option (Tree × Larxer)
  | 0, _, _, _ => none
  | fuel + 1, l, currentnode, parents =>
      match climb currentnode parents with
      | .inl root => some (root, l)
      | .inr (currentnode, parents) =>
          match l.parsedStack with
          | [] => some (.null, l)
          | item :: stack =>
              let l' := { l with parsedStack := stack }
              let expression := expressionFrom (expressionLoop fuel)
              match item with
              | .typeOperator op =>
                  expressionLoop fuel l' (Open.new op) (currentnode :: parents)
              | .typeOperand val =>
                  if operandType val = operandSubquery then
                    (consumeSubquery expression fuel l').bind fun (sq, l') =>
                      expressionLoop fuel l'
                        (currentnode.put (.operand (subqueryOperand val sq)))
                        parents
                  else
                    expressionLoop fuel l' (currentnode.put (.operand val))
                      parents
              | .typeExpression => expressionLoop fuel l' currentnode parents
              | .typeInobject =>
                  (consumeInobject expression fuel l').bind fun l' =>
                    expressionLoop fuel l' currentnode parents
              | .typeInbegin => expressionLoop fuel l' currentnode parents
              | _ => some (rootnode currentnode parents, l)

def consumeExpression (fuel : ℕ) : Consume :=
  expressionFrom (expressionLoop fuel)

/-! ## Statements -/

/-- The loop of `consumeInsert`. -/
def insertLoop (expression : Consume) : ℕ → Larxer → Option Larxer
  | 0, _ => none
  | fuel + 1, l =>
      match l.parsedStack with
      | [] => some l
      | .typeExpression :: stack =>
          (expression { l with parsedStack := stack }).bind fun (tree, l) =>
            insertLoop expression fuel
              (l.modify fun q =>
                { q with insertColumns := q.insertColumns ++ [tree] })
      | _ => insertLoop expression fuel (consumeFrom l)

def consumeInsert (fuel : ℕ) (l : Larxer) : Option Larxer :=
  insertLoop (consumeExpression fuel) fuel
    (l.modify fun q => { q with type := .insert, locktype := .writeLock })

/-- `assignments[name] = tree`. -/
def insertAssignment (name : Bytes) (tree : Tree) :
    List (Bytes × Tree) → List (Bytes × Tree)
  | [] => [(name, tree)]
  | (n, t) :: rest =>
      if n = name then (n, tree) :: rest
      else (n, t) :: insertAssignment name tree rest

/-- One assignment, its expression below an item that is not looked at, and
its name below that. A name of no bytes has no `substr(1)`. -/
def consumeAssignment (expression : Consume) (l : Larxer) : Option Larxer :=
  match l.parsedStack with
  | [] => none
  | _ :: stack =>
      (expression { l with parsedStack := stack }).bind fun (tree, l) =>
        match l.parsedStack with
        | [] => none
        | item2 :: stack =>
            if item2.val = [] then none
            else
              some ({ l with parsedStack := stack }.modify fun q =>
                { q with assignments :=
                    insertAssignment (item2.val.drop 1) tree q.assignments })

/-- The loop of `consumeUpdate`. -/
def updateLoop (expression : Consume) : ℕ → Larxer → Option Larxer
  | 0, _ => none
  | fuel + 1, l =>
      match l.parsedStack with
      | [] => some l
      | .typeWhere :: stack =>
          (consumeWhere expression { l with parsedStack := stack }).bind
            (updateLoop expression fuel)
      | .typeAssignment :: stack =>
          (consumeAssignment expression { l with parsedStack := stack }).bind
            (updateLoop expression fuel)
      | _ => some (consumeFrom l)

def consumeUpdate (fuel : ℕ) (l : Larxer) : Option Larxer :=
  updateLoop (consumeExpression fuel) fuel
    (l.modify fun q => { q with type := .update, locktype := .writeLock })

/-- The loop of `consumeDelete`. -/
def deleteLoop (expression : Consume) : ℕ → Larxer → Option Larxer
  | 0, _ => none
  | fuel + 1, l =>
      match l.parsedStack with
      | [] => some l
      | .typeWhere :: stack =>
          (consumeWhere expression { l with parsedStack := stack }).bind
            (deleteLoop expression fuel)
      | _ => deleteLoop expression fuel (consumeFrom l)

def consumeDelete (fuel : ℕ) (l : Larxer) : Option Larxer :=
  deleteLoop (consumeExpression fuel) fuel
    (l.modify fun q => { q with type := .delete, locktype := .writeLock })

/-- The loop of `eatstack`. -/
def eatLoop : ℕ → Larxer → Option Larxer
  | 0, _ => none
  | fuel + 1, l =>
      match l.parsedStack with
      | [] => some l
      | item :: stack =>
          let l := { l with parsedStack := stack }
          match item with
          | .typeSelect columns =>
              (consumeSelect (consumeExpression fuel) fuel columns l).bind
                (eatLoop fuel)
          | .typeInsert => (consumeInsert fuel l).bind (eatLoop fuel)
          | .typeUpdate => (consumeUpdate fuel l).bind (eatLoop fuel)
          | .typeDelete => (consumeDelete fuel l).bind (eatLoop fuel)
          | _ => eatLoop fuel l

/-- `eatstack`. -/
def eatstack (parsedStack : List StackMember) : Option (List Query) :=
  (eatLoop (parsedStack.length + 1) ⟨parsedStack, [{}], 0⟩).map
    Larxer.queries

end Infinisql.Larx
