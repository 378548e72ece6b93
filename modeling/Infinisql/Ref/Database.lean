import Infinisql.Ref.SearchEqual

/-!
# Statements on the rows and indexes of all engines

Here the engines have their indexes, and a message is all that goes between a
transaction and an engine. A statement sends its first messages, and what it
does with the reply to a NEWROW comes when that message is carried out: an
INSERT stages the row and its unique values, a replace sends the deletion of
the old row and stages the values it has set. The other replies only say
whether the statement may go on.

Messages are carried out in any order. A transaction takes a reply only while
the statement that waits for it is there, so a reply may also be dropped. What
a search has found is given with the statement, and a statement on many rows
is given row by row. The items that end a transaction go out one staged row at
a time.
-/

namespace Infinisql.Ref

/-- What an engine is asked for. -/
inductive EngineRequest
  | cmd (cmd : Statement.SubtransactionCmd)
  | deleterow (tableid rowid : Int)
  | replacedeleterow (tableid rowid forward_rowid forward_engineid : Int)
  | rof (cmd : Enginecmd) (rof : RowOrField)

/-- The statement that waits for a NEWROW, and what it goes on with. -/
inductive NewrowOrigin
  | insert (insertValues : List FieldValue)
  | replace (originalrowuur : UuRecord) (setFields : Statement.SetFields)

structure EngineMessage where
  transactionid : Int
  engineid : Int
  pendingcmdid : Int
  tacmdentrypoint : Int
  request : EngineRequest
  origin : Option NewrowOrigin := none

/-- The engines, what each transaction has staged, and the messages on their
way. -/
structure Database where
  cluster : Cluster
  stagedRows : Int → UuRecord → Option StagedRow
  sent : List EngineMessage

inductive DatabaseOp
  | insert (transactionid pendingcmdid tableid : Int) (operands : List Bytes)
  | update (transactionid pendingcmdid tableid : Int) (parameters : List Bytes)
      (assignments : Statement.Assignments) (setFields : Statement.SetFields)
      (uur : UuRecord) (returnRow : ReturnRow)
  | delete (transactionid pendingcmdid : Int) (uur : UuRecord)
      (returnRow : ReturnRow)
  | select (transactionid : Int) (uur : UuRecord) (returnRow : ReturnRow)
  | selectrows (transactionid engineid tableid : Int) (rowids : List Int)
      (locktype : Locktype) (pendingcmdid tacmdentrypoint : Int)
  | sqlPredicate (transactionid : Int) (p : EqualPredicate)
  | deliver (n : Nat) (accepted : Bool)
  | commit (transactionid pendingcmdid : Int) (uur : UuRecord)
  | rollback (transactionid pendingcmdid : Int) (uur : UuRecord)

/-! ## The engine -/

/-- An operation on the rows of a table. -/
def Engine.onStore (e : Engine) (tableid : Int) (f : Table → Table) :
    Option Engine :=
  (e.tables tableid).map fun p =>
    let p' := { p with store := f p.store }
    { e with tables := Function.update e.tables tableid (some p') }

/-- An engine of a new database: a partition of every table, without rows. -/
def Engine.ofSchema (schema : Int → List Field) (subTransactions : Finset Int) :
    Engine where
  tables tableid := some
    { store := .new tableid 0
      index := fun n => match (schema tableid)[n]? with
        | some f => .makeindex f.indextype f.type
        | none => .makeindex .none .nofieldtype }
  subTransactions := subTransactions
  nextsubtransactionid := 0

namespace SubTransaction

/-- A message that a subtransaction carries out, and the rowid that a NEWROW
answers with. -/
def process (s : Int) (e : Engine) (m : EngineMessage) :
    Option (Int × Engine) :=
  match m.request with
  | .cmd (.newrow tableid row) => newrow s e tableid row
  | .cmd (.updaterow tableid rowid row) =>
      (e.onStore tableid fun t => (t.updaterow rowid s row).2).map (0, ·)
  | .cmd (.uniqueindex tableid rowid engineid fieldid fieldVal) =>
      (uniqueIndex s e tableid fieldid rowid engineid m.pendingcmdid
        m.tacmdentrypoint fieldVal).map fun (_, e') => (0, e')
  | .deleterow tableid rowid =>
      (e.onStore tableid fun t => (t.deleterow rowid s).2).map (0, ·)
  | .replacedeleterow tableid rowid forward_rowid forward_engineid =>
      (e.onStore tableid fun t =>
        (t.replacedeleterow rowid s forward_rowid forward_engineid).2).map
          (0, ·)
  | .rof cmd rof => (applyRof s cmd e rof).map (0, ·)

end SubTransaction

/-! ## The transaction -/

namespace Statement

/-- The unique values that a replace stages: those that were set, as the new
row has them. -/
def replaceUniqueIndices (top : Topology) (fields : List Field)
    (newRow : Bytes) (setFields : SetFields) : List (Nat × LockFieldValue) :=
  let fieldValues := unmakerow fields newRow
  (List.range fields.length).filterMap fun n =>
    match fields[n]?, setFields n with
    | some f, some _ =>
        if f.indextype.isunique then
          let (engineid, val) :=
            Transaction.getengine top f (fieldValues.getD n {})
          some (n, { locktype := .indexLock, engineid := engineid
                     fieldVal := val })
        else none
    | _, _ => none

/-- `uniqueIndices[n] = lockFieldValue` for each of them. -/
def setUniqueIndices (uniqueIndices new : List (Nat × LockFieldValue)) :
    List (Nat × LockFieldValue) :=
  uniqueIndices.filter (fun p => !new.any (·.1 == p.1)) ++ new

end Statement

namespace Transaction

/-- The items that roll back what was staged for a row. -/
def rollbackItems (uur : UuRecord) (sRow : StagedRow) :
    List (Int × RowOrField) :=
  (if sRow.cmd = .update ∧ (uur.rowid ≠ sRow.newrowid ∨
      uur.engineid ≠ sRow.newengineid) then
    [(sRow.newengineid, rowItem uur.tableid sRow.newrowid)] else []) ++
  (uur.engineid, rowItem uur.tableid uur.rowid) ::
  sRow.uniqueIndices.map fun (n, val) =>
    (val.engineid,
      { tableid := uur.tableid, rowid := uur.rowid, fieldid := n
        fieldVal := val.fieldVal })

end Transaction

namespace Database

def new (schema : Int → List Field) (subTransactions : Int → Finset Int) :
    Database where
  cluster e := .ofSchema schema (subTransactions e)
  stagedRows _ _ := none
  sent := []

def setEngine (s : Database) (engineid : Int) (e : Engine) : Database :=
  { s with cluster := Function.update s.cluster engineid e }

def stage (s : Database) (transactionid : Int) (uur : UuRecord)
    (stagedRow : StagedRow) : Database :=
  let rows := Function.update (s.stagedRows transactionid) uur (some stagedRow)
  { s with stagedRows := Function.update s.stagedRows transactionid rows }

def send (s : Database) (sent : List EngineMessage) : Database :=
  { s with sent := s.sent ++ sent }

/-! ### Replies to NEWROW -/

/-- `continueSqlInsert`, entry point 1. -/
def continueSqlInsert (s : Database) (top : Topology)
    (schema : Int → List Field) (m : EngineMessage) (tableid rowid : Int)
    (row : Bytes) (insertValues : List FieldValue) : Database :=
  let uniqueIndices :=
    Statement.uniqueValues top (schema tableid) insertValues
  (s.send (uniqueIndices.map fun (n, val) =>
    { transactionid := m.transactionid, engineid := val.engineid
      pendingcmdid := m.pendingcmdid, tacmdentrypoint := 2
      request := .cmd (.uniqueindex tableid rowid m.engineid n
        val.fieldVal) })).stage m.transactionid ⟨rowid, tableid, m.engineid⟩
    { cmd := .insert, newRow := row, newrowid := rowid
      locktype := .writeLock, uniqueIndices := uniqueIndices }

/-- `continueSqlReplace`, entry point 1. -/
def continueSqlReplace (s : Database) (top : Topology)
    (schema : Int → List Field) (m : EngineMessage) (tableid rowid : Int)
    (uur : UuRecord) (setFields : Statement.SetFields) : Database :=
  let stagedRow := (s.stagedRows m.transactionid uur).getD {}
  let uniqueIndices := Statement.replaceUniqueIndices top (schema tableid)
    stagedRow.newRow setFields
  let message := fun (engineid : Int) (request : EngineRequest) =>
    ({ transactionid := m.transactionid, engineid := engineid
       pendingcmdid := m.pendingcmdid, tacmdentrypoint := 2
       request := request } : EngineMessage)
  (s.send (message stagedRow.originalengineid (.replacedeleterow tableid
      stagedRow.originalrowid rowid stagedRow.newengineid) ::
    uniqueIndices.map fun (n, val) =>
      message val.engineid (.cmd (.uniqueindex tableid rowid
        stagedRow.newengineid n val.fieldVal)))).stage m.transactionid uur
    { stagedRow with
      newrowid := rowid
      uniqueIndices :=
        Statement.setUniqueIndices stagedRow.uniqueIndices uniqueIndices }

/-- What a transaction does with the reply. -/
def reply (s : Database) (top : Topology) (schema : Int → List Field)
    (m : EngineMessage) (rowid : Int) : Database :=
  match m.request, m.origin with
  | .cmd (.newrow tableid row), some (.insert insertValues) =>
      s.continueSqlInsert top schema m tableid rowid row insertValues
  | .cmd (.newrow tableid _), some (.replace uur setFields) =>
      s.continueSqlReplace top schema m tableid rowid uur setFields
  | _, _ => s

/-- A message is carried out. -/
def deliver (s : Database) (top : Topology) (schema : Int → List Field)
    (subs : Int → Int → Int) (n : Nat) (accepted : Bool) : Option Database :=
  match s.sent[n]? with
  | none => none
  | some m =>
      (SubTransaction.process (subs m.transactionid m.engineid)
        (s.cluster m.engineid) m).map fun (rowid, e) =>
          let s' := { s with sent := s.sent.eraseIdx n }.setEngine m.engineid e
          if accepted then s'.reply top schema m rowid else s'

/-! ### Statements -/

/-- An INSERT, as far as its NEWROW. -/
def insert (s : Database) (top : Topology) (schema : Int → List Field)
    (transactionid pendingcmdid tableid : Int) (operands : List Bytes) :
    Option Database :=
  match Statement.insertValues (schema tableid) operands with
  | none => none
  | some (.error _) => some s
  | some (.ok values) =>
      (Statement.makeNewrow top (schema tableid) values).map fun new =>
        s.send [{ transactionid := transactionid
                  engineid := new.newrowengineid
                  pendingcmdid := pendingcmdid, tacmdentrypoint := 1
                  request := .cmd (.newrow tableid new.newrow)
                  origin := some (.insert new.insertValues) }]

/-- One row of an UPDATE. -/
def update (s : Database) (ld : LongDouble) (top : Topology)
    (schema : Int → List Field) (transactionid pendingcmdid tableid : Int)
    (parameters : List Bytes) (assignments : Statement.Assignments)
    (setFields : Statement.SetFields) (uur : UuRecord)
    (returnRow : ReturnRow) : Option Database :=
  (Statement.updateRow ld top tableid (schema tableid) parameters assignments
    setFields uur returnRow
    ((s.stagedRows transactionid uur).getD {})).map
      fun (updated, _, setFields') =>
        (s.stage transactionid uur updated.stagedRow).send <|
          updated.sent.map fun (engineid, cmd) =>
            { transactionid := transactionid, engineid := engineid
              pendingcmdid := pendingcmdid, tacmdentrypoint := 1
              request := .cmd cmd
              origin := match cmd with
                | .newrow .. => some (.replace uur setFields')
                | _ => none }

/-- One row of a DELETE. -/
def delete (s : Database) (transactionid pendingcmdid : Int) (uur : UuRecord)
    (returnRow : ReturnRow) : Database :=
  (s.stage transactionid uur
    { (s.stagedRows transactionid uur).getD {} with
      cmd := .delete, originalRow := returnRow.row }).send
    [{ transactionid := transactionid, engineid := uur.engineid
       pendingcmdid := pendingcmdid, tacmdentrypoint := 1
       request := .deleterow uur.tableid uur.rowid }]

/-- `continueSelect`, for one row. -/
def select (s : Database) (transactionid : Int) (uur : UuRecord)
    (returnRow : ReturnRow) : Database :=
  match s.stagedRows transactionid uur with
  | some _ => s
  | none => s.stage transactionid uur
      { cmd := .nocommand, locktype := returnRow.locktype
        originalRow := returnRow.row, originalrowid := returnRow.rowid }

/-- The items of a staged row, sent. -/
def finish (s : Database) (transactionid pendingcmdid tacmdentrypoint : Int)
    (cmd : Enginecmd) (items : List (Int × RowOrField)) : Database :=
  s.send (items.map fun (engineid, rof) =>
    { transactionid := transactionid, engineid := engineid
      pendingcmdid := pendingcmdid, tacmdentrypoint := tacmdentrypoint
      request := .rof cmd rof })

def step (ld : LongDouble) (top : Topology) (schema : Int → List Field)
    (subs : Int → Int → Int) (s : Database) : DatabaseOp → Option Database
  | .insert x pendingcmdid tableid operands =>
      s.insert top schema x pendingcmdid tableid operands
  | .update x pendingcmdid tableid parameters assignments setFields uur
      returnRow =>
      s.update ld top schema x pendingcmdid tableid parameters assignments
        setFields uur returnRow
  | .delete x pendingcmdid uur returnRow =>
      some (s.delete x pendingcmdid uur returnRow)
  | .select x uur returnRow => some (s.select x uur returnRow)
  | .selectrows x e tableid rowids locktype pendingcmdid tacmdentrypoint =>
      (SubTransaction.selectrows (subs x e) (s.cluster e) tableid rowids
        locktype pendingcmdid tacmdentrypoint).map fun (_, engine) =>
          s.setEngine e engine
  | .sqlPredicate x p =>
      (Transaction.sqlPredicate top (subs x) p s.cluster).map
        fun (_, cluster) => { s with cluster := cluster }
  | .deliver n accepted => s.deliver top schema subs n accepted
  | .commit x pendingcmdid uur =>
      (s.stagedRows x uur).map fun sRow =>
        let items :=
          Transaction.rowItems top (schema uur.tableid) uur sRow
        (s.finish x pendingcmdid 2 .commitCmd items.1).finish x pendingcmdid
          3 .commitCmd items.2
  | .rollback x pendingcmdid uur =>
      (s.stagedRows x uur).map fun sRow =>
        s.finish x pendingcmdid 0 .rollbackCmd
          (Transaction.rollbackItems uur sRow)

end Database

end Infinisql.Ref
