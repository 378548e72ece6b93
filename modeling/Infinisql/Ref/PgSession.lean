import Infinisql.Ref.PgLogin

/-!
# Queries of a session

Once a session is established, each query goes through `Pg::cont`. It is
answered at once, or it starts a statement, and the session goes on when the
statement has come back: in `continuePgFunc`, and after a commit in one of the
`continuePgCommit` functions. A rollback does not wait for anything.

What the grammar and the engines make of a query is given: whether it parses,
to a statement of which type, whether its table and columns exist, and what
the statement comes back with. `Transaction` objects are the numbers
`TransactionAgent` gives them; those the session has are noted, and so is
what is done in them.

The socket takes what is written to it, and the connection stays open. Left
out is `statementPtr`, which nothing else looks at.
-/

namespace Infinisql.Ref.Session

/-- `cmd_e`. -/
inductive Cmd
  | none
  | select
  | insert
  | update
  | delete
  | begin
  | commit
  | rollback
  | set
  | storedprocedure
  | create
  | drop
  | alter
  deriving DecidableEq, Repr

/-- The types that name a table and run in a transaction. -/
def Cmd.isTransactional : Cmd → Bool
  | .select | .insert | .update | .delete => true
  | _ => false

/-- A query that parses. -/
structure Statement where
  type : Cmd
  /-- The table is in the schema, and so are the columns. -/
  resolves : Bool := true
  /-- An `INSERT` has a value for each field of the table, and no more. -/
  complete : Bool := true
  /-- A stored procedure of the name is there. -/
  loaded : Bool := true
  deriving DecidableEq, Repr

/-- What the client is sent. -/
inductive Reply
  | rowDescription
  | dataRow
  | commandComplete (tag : String)
  | errorResponse (severity code message : String)
  | noticeResponse (severity code message : String)
  | readyForQuery (status : Char)
  deriving DecidableEq, Repr

/-- What is done in transactions. -/
inductive Effect
  | began (tx : Nat)
  | executed (tx : Nat) (type : Cmd)
  /-- A stored procedure, in a transaction of its own. -/
  | called
  | committed (tx : Nat)
  | rolledBack (tx : Nat)
  deriving DecidableEq, Repr

/-- `results_s`, with the numbers of rows only. -/
structure Results where
  cmdtype : Cmd := .none
  transactionPtr : Option Nat := none
  statementStatus : Int := 0
  statementResults : Nat := 0
  selectResults : Nat := 0

/-- What the session waits for. -/
inductive Pending
  | statement (stmt : Statement) (tx : Option Nat)
  | commitimplicit
  | commitexplicit
  deriving DecidableEq, Repr

structure Pg where
  state : PgState := .established
  transactionPtr : Option Nat := none
  session_isautocommit : Bool := true
  command_autocommit : Bool := true
  isintransactionblock : Bool := false
  results : Results := {}
  outbuf : List Reply := []
  /-- The transactions of the session that exist. -/
  transactions : List Nat := []
  nexttransactionid : Nat := 0
  pending : List Pending := []
  sent : List Reply := []
  effects : List Effect := []

namespace Pg

/-! ## Replies -/

def put (pg : Pg) (reply : Reply) : Pg :=
  { pg with outbuf := pg.outbuf ++ [reply] }

/-- `ReadyForQuery` comes last. -/
def writesocket (pg : Pg) : Pg :=
  let pg :=
    if pg.state = .established then
      pg.put (.readyForQuery (if pg.transactionPtr = none then 'I' else 'T'))
    else if pg.state = .aborted then pg.put (.readyForQuery 'E')
    else pg
  { pg with sent := pg.sent ++ pg.outbuf, outbuf := [] }

def putCommandComplete (pg : Pg) (tag : String) : Pg :=
  pg.put (.commandComplete tag)

def putErrorResponse (pg : Pg) (severity code message : String) : Pg :=
  (pg.put (.errorResponse severity code message)).writesocket

def putNoticeResponse (pg : Pg) (severity code message : String) : Pg :=
  pg.put (.noticeResponse severity code message)

def putRowDescription (pg : Pg) : Pg := pg.put .rowDescription

def putDataRows (pg : Pg) : Pg :=
  { pg with
    outbuf := pg.outbuf ++
      List.replicate pg.results.selectResults .dataRow }

def errorStatus (pg : Pg) (status : Int) : Pg :=
  -- APISTATUS_NOTOK, APISTATUS_UNIQUECONSTRAINT, APISTATUS_LOCK
  if status = 1 then
    pg.putErrorResponse "ERROR" "42000" "generic InfiniSQL error"
  else if status = 6 then
    pg.putErrorResponse "ERROR" "23000" "integrity_constraint_violation"
  else if status = 9 then
    pg.putErrorResponse "ERROR" "55P03" "lock not available"
  else
    pg.putErrorResponse "ERROR" "42000"
      "syntax_error_or_access_rule_violation"

/-! ## Transactions -/

/-- `new class Transaction`. -/
def newTransaction (pg : Pg) : Pg :=
  { pg with
    transactions := pg.transactions ++ [pg.nexttransactionid]
    nexttransactionid := pg.nexttransactionid + 1
    effects := pg.effects ++ [.began pg.nexttransactionid] }

/-- `delete transactionPtr`, if there is one. -/
def deleteTransaction (pg : Pg) : Pg :=
  match pg.transactionPtr with
  | none => pg
  | some tx =>
      { pg with
        transactions := pg.transactions.erase tx
        transactionPtr := none }

def continuePgCommitimplicit (pg : Pg) : Pg :=
  pg.deleteTransaction.writesocket

def continuePgCommitexplicit (pg : Pg) : Pg :=
  { (pg.putCommandComplete "COMMIT").deleteTransaction.writesocket with
    outbuf := [] }

def continuePgRollbackimplicit (pg : Pg) : Pg :=
  { pg with outbuf := [] }.deleteTransaction

def continuePgRollbackexplicit (pg : Pg) : Pg :=
  { (pg.deleteTransaction.putCommandComplete "ROLLBACK").writesocket with
    outbuf := [] }

/-- A commit that waits for the engines. -/
def commit (pg : Pg) (tx : Nat) (reentry : Pending) : Pg :=
  { pg with
    effects := pg.effects ++ [.committed tx]
    pending := pg.pending ++ [reentry] }

def sqlcommitimplicit (pg : Pg) : Pg :=
  match pg.transactionPtr with
  | none => pg.continuePgCommitimplicit
  | some tx => pg.commit tx .commitimplicit

def sqlcommitexplicit (pg : Pg) : Pg :=
  match pg.transactionPtr with
  | none => pg.continuePgCommitexplicit
  | some tx => pg.commit tx .commitexplicit

/-- A rollback comes back within the call. -/
def rollback (pg : Pg) (tx : Nat) : Pg :=
  { pg with effects := pg.effects ++ [.rolledBack tx] }

def sqlrollbackimplicit (pg : Pg) : Pg :=
  let pg :=
    if pg.isintransactionblock then { pg with state := .aborted } else pg
  match pg.transactionPtr with
  | none => pg.continuePgRollbackimplicit
  | some tx => (pg.rollback tx).continuePgRollbackimplicit

def sqlrollbackexplicit (pg : Pg) : Pg :=
  match pg.transactionPtr with
  | none => pg.continuePgRollbackexplicit
  | some tx => (pg.rollback tx).continuePgRollbackexplicit

/-! ## Statements that have come back -/

/-- The implicit commit of a statement outside a block, or its answer. -/
def finish (pg : Pg) : Pg :=
  if !pg.isintransactionblock &&
      (pg.session_isautocommit || pg.command_autocommit) then
    pg.sqlcommitimplicit
  else pg.writesocket

def failed (pg : Pg) (status : Int) : Pg :=
  pg.sqlrollbackimplicit.errorStatus status

def putRows (pg : Pg) : Pg :=
  pg.putRowDescription.putDataRows.putCommandComplete
    ("SELECT " ++ toString pg.results.selectResults)

def continuePgFunc (pg : Pg) : Pg :=
  let pg := { pg with transactionPtr := pg.results.transactionPtr }
  let status := pg.results.statementStatus
  match pg.results.cmdtype with
  | .select =>
      if status = 0 then pg.putRows.finish else pg.failed status
  | .insert =>
      if status = 0 then (pg.putCommandComplete "INSERT 0 1").finish
      else pg.failed status
  | .update =>
      if status = 0 then
        (pg.putCommandComplete
          ("UPDATE " ++ toString pg.results.statementResults)).finish
      else pg.failed 1
  | .delete =>
      if status = 0 then
        (pg.putCommandComplete
          ("DELETE " ++ toString pg.results.statementResults)).finish
      else pg.failed status
  | .begin =>
      match pg.transactionPtr with
      | none =>
          ({ pg.newTransaction with
              transactionPtr := some pg.nexttransactionid
              isintransactionblock := true }.putCommandComplete
            "BEGIN").writesocket
      | some _ =>
          ((pg.putNoticeResponse "WARNING" "25001"
            "there is already a transaction in progress").putCommandComplete
            "BEGIN").writesocket
  | .commit =>
      match pg.transactionPtr with
      | some _ => { pg with isintransactionblock := false }.sqlcommitexplicit
      | none =>
          ((pg.putNoticeResponse "WARNING" "25P01"
            "there is no transaction in progress").putCommandComplete
            "COMMIT").writesocket
  | .rollback =>
      match pg.transactionPtr with
      | some _ => { pg with isintransactionblock := false }.sqlrollbackexplicit
      | none =>
          ((pg.putNoticeResponse "WARNING" "25P01"
            "there is no transaction in progress").putCommandComplete
            "ROLLBACK").writesocket
  | .storedprocedure =>
      if status = 0 then pg.putRows.finish else pg.failed status
  | .none | .set | .create | .drop | .alter => pg

/-! ## `Statement` -/

/-- `Statement::reenter`. -/
def reenter (pg : Pg) (transactionPtr : Option Nat) (status : Int) : Pg :=
  { pg with
    results := { pg.results with
      transactionPtr, statementStatus := status } }.continuePgFunc

/-- `Statement::startQuery` after the last query, then `reenter`. -/
def reenterOk (pg : Pg) (type : Cmd) (transactionPtr : Option Nat)
    (rows : Nat) : Pg :=
  let results := { pg.results with cmdtype := type }
  let results : Results :=
    match type with
    | .select => { results with selectResults := rows }
    | .insert =>
        { results with statementResults := results.statementResults + 1 }
    | .update | .delete => { results with statementResults := rows }
    | _ => results
  { pg with results }.reenter transactionPtr 0

/-- `Statement::execute` for these: in the transaction there is, or in a new
one. -/
def executeInTransaction (pg : Pg) (stmt : Statement) : Pg :=
  let run (pg : Pg) (tx : Nat) : Pg :=
    { pg with
      pending := pg.pending ++ [.statement stmt (some tx)]
      effects := pg.effects ++ [.executed tx stmt.type] }
  match pg.transactionPtr with
  | some tx => run pg tx
  | none => run pg.newTransaction pg.nexttransactionid

/-- `Statement::execute`. An `INSERT` whose row cannot be made comes back with
an error and then goes on with the `Statement` it has deleted, which has no
result. -/
def execute (pg : Pg) (stmt : Statement) : Option Pg :=
  let pg := { pg with results := { pg.results with cmdtype := stmt.type } }
  match stmt.type with
  | .select | .update | .delete => some (pg.executeInTransaction stmt)
  | .insert =>
      if stmt.complete then some (pg.executeInTransaction stmt) else none
  | .storedprocedure =>
      if stmt.loaded then
        some { pg with
          pending := pg.pending ++ [.statement stmt none]
          effects := pg.effects ++ [.called] }
      else some (pg.reenter pg.transactionPtr 1)
  | .begin | .commit | .rollback =>
      some (pg.reenterOk stmt.type pg.transactionPtr 0)
  | .none | .set | .create | .drop | .alter =>
      some (pg.reenter pg.transactionPtr 1)

/-! ## `cont` -/

def executeStatement (pg : Pg) (query : Option Statement) : Option Pg :=
  match query with
  | none => some (pg.putErrorResponse "ERROR" "42601" "syntax error")
  | some stmt =>
      if stmt.type.isTransactional && !stmt.resolves then
        some (pg.sqlrollbackimplicit.putErrorResponse "ERROR" "42704"
          "table or column does not exist")
      else
        { pg with
          results := {}
          command_autocommit := pg.transactionPtr.isNone }.execute stmt

/-- A query in `STATE_ABORTED`. -/
def contAborted (pg : Pg) (query : Option Statement) : Pg :=
  match query with
  | none => pg.putErrorResponse "ERROR" "42601" "syntax error, aborted"
  | some stmt =>
      if stmt.type = .commit ∨ stmt.type = .rollback then
        { pg.putCommandComplete "ROLLBACK" with
          state := .established
          isintransactionblock := false }.writesocket
      else
        pg.putErrorResponse "ERROR" "25P02"
          ("current transaction is aborted, commands ignored until " ++
            "end of transaction block")

/-- A query has been read. -/
def cont (pg : Pg) (query : Option Statement) : Option Pg :=
  let pg := { pg with outbuf := [] }
  match pg.state with
  | .established => pg.executeStatement query
  | .aborted => some (pg.contAborted query)
  | _ => some pg

/-- A statement comes back, or a commit. A statement of a transaction comes
back through `Statement::reenter`, a stored procedure sets the status and the
rows itself. -/
def returns (pg : Pg) (pending : Pending) (status : Int) (rows : Nat) : Pg :=
  match pending with
  | .statement stmt (some tx) =>
      if status = 0 then pg.reenterOk stmt.type (some tx) rows
      else pg.reenter (some tx) status
  | .statement _ none =>
      { pg with
        results := { pg.results with
          statementStatus := status, selectResults := rows } }.continuePgFunc
  | .commitimplicit => pg.continuePgCommitimplicit
  | .commitexplicit => pg.continuePgCommitexplicit

/-! ## One query at a time -/

/-- The first thing the session waits for comes back, if it does. -/
def settle (outcome : Option (Int × Nat)) (pg : Pg) : Option Pg :=
  match pg.pending, outcome with
  | [], _ => some pg
  | pending :: rest, some (status, rows) =>
      some ({ pg with pending := rest }.returns pending status rows)
  | _ :: _, none => none

/-- A query is run to its end: its statement comes back, and then its
commit. -/
def answer (pg : Pg) (query : Option Statement)
    (outcome : Option (Int × Nat)) : Option Pg := do
  let pg ← pg.cont query
  let pg ← pg.settle outcome
  pg.settle outcome

end Pg

/-! ## Queries as they arrive -/

inductive Event
  | query (query : Option Statement)
  /-- What the session waits for at `i` comes back. -/
  | returns (i : Nat) (status : Int) (rows : Nat)
  deriving DecidableEq, Repr

def step (pg : Pg) : Event → Option Pg
  | .query query => pg.cont query
  | .returns i status rows =>
      match pg.pending[i]? with
      | none => none
      | some pending =>
          some ({ pg with pending := pg.pending.eraseIdx i }.returns pending
            status rows)

end Infinisql.Ref.Session
