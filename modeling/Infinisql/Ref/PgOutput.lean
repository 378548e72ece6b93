import Infinisql.Lib.Codec
import Infinisql.Ref.PgSession
import Infinisql.Ref.Value

/-!
# Output of a session

What a session has for its client is put together message by message in
`outmsg`, and appended to `outbuf` by `replymsg`. `writesocket` ends it with
`ReadyForQuery`, once the session is established, and calls `send` until all
of it is gone or the socket takes no more. In that case the rest stays in
`outbuf` and the descriptor is registered for `EPOLLOUT`, upon which
`rewritesocket` goes on.

This is the model of the session's queries with the bytes put in, from the
first byte of a connection. Whatever the socket does short of an error is
given: how much each call of `send` takes, or that it would block. The program
that prints floating point numbers and the name of the time zone are the
host's. `outcmd`, which is set just before `replymsg`, is an argument of that
here. The effects of statements are left out.
-/

namespace Infinisql.Ref.Output

open Infinisql.Lib
open Infinisql.Ref.Session (Cmd Statement Pending)

/-! ## Bytes -/

/-- The bytes of a number of this many, the highest first, as `htobe16` and
`htobe32` have them. -/
def htobe (n : Nat) (v : Int) : Bytes :=
  (leBytes n (v % (2 ^ (8 * n) : Nat)).toNat).reverse

def ascii (s : String) : Bytes := s.toList.map fun c => UInt8.ofNat c.toNat

/-- `sprintf` with `%li` and `%lu`. -/
def decimal (v : Int) : Bytes := ascii (toString v)

/-- What the host decides. -/
structure Host where
  floatText : FieldInput → Bytes
  tzname : Bytes

/-- The result of a call of `send`: it has taken more than this many bytes, as
far as there are more, or it would block. -/
inductive Send
  | sent (n : Nat)
  | again
  deriving DecidableEq, Repr

/-- `fieldtypename_s` of a selected field. -/
structure Fieldtypename where
  type : Fieldtype
  name : Bytes
  isfield : type ≠ .nofieldtype

structure Results where
  cmdtype : Cmd := .none
  transactionPtr : Option Nat := none
  statementStatus : Int := 0
  /-- The number of rows. -/
  statementResults : Nat := 0
  selectFields : List Fieldtypename := []
  selectResults : List (List FieldValue) := []

structure Pg where
  state : PgState := .begin
  transactionPtr : Option Nat := none
  session_isautocommit : Bool := true
  command_autocommit : Bool := true
  isintransactionblock : Bool := false
  startupArgs : Bytes → Bytes := fun _ => []
  results : Results := {}
  outmsg : Bytes := []
  outbuf : Bytes := []
  nexttransactionid : Nat := 0
  pending : List Pending := []
  /-- The descriptor is registered for `EPOLLOUT`. -/
  epollout : Bool := false
  /-- The calls of `send` to come. When there are no more of them here, the
  socket takes all. -/
  sends : List Send := []
  /-- What the socket has taken. -/
  sent : Bytes := []

namespace Pg

/-! ## `put` and `replymsg` -/

def put (pg : Pg) (val : Bytes) : Pg := { pg with outmsg := pg.outmsg ++ val }

def putInt16 (pg : Pg) (val : Int) : Pg := pg.put (htobe 2 val)

def putInt32 (pg : Pg) (val : Int) : Pg := pg.put (htobe 4 val)

/-- `put(string &)` and `put(char *)`. -/
def putString (pg : Pg) (val : Bytes) : Pg := pg.put (val ++ [0])

def putChar (pg : Pg) (val : Char) : Pg := pg.put (ascii val.toString)

def replymsg (pg : Pg) (outcmd : Char) : Pg :=
  { pg with
    outbuf := pg.outbuf ++
      (ascii outcmd.toString ++ htobe 4 (pg.outmsg.length + 4) ++ pg.outmsg)
    outmsg := [] }

/-! ## `send` -/

/-- The loop of `writesocket`: what is left, what has been taken, and whether
there is nothing left. -/
def sendAll : List Send → Bytes → Bytes → Bytes × Bytes × Bool
  | [], outbuf, sent => ([], sent ++ outbuf, true)
  | result :: sends, outbuf, sent =>
      if outbuf.length = 0 then ([], sent, true)
      else
        match result with
        | .again => (outbuf, sent, false)
        | .sent n =>
            let taken := min (n + 1) (min outbuf.length 8192)
            sendAll sends (outbuf.drop taken) (sent ++ outbuf.take taken)

/-- The last message before `send`. -/
def putReady (pg : Pg) : Pg :=
  if pg.state = .established then
    (pg.putChar (if pg.transactionPtr = none then 'I' else 'T')).replymsg 'Z'
  else if pg.state = .aborted then (pg.putChar 'E').replymsg 'Z'
  else pg

/-- 0: send complete, 1: data remaining & backgrounded -/
def writesocketStatus (pg : Pg) : Nat × Pg :=
  let pg := pg.putReady
  let (outbuf, sent, complete) := sendAll pg.sends pg.outbuf pg.sent
  if complete then (0, { pg with outbuf := [], sent })
  else (1, { pg with outbuf, sent, epollout := true })

def writesocket (pg : Pg) : Pg := pg.writesocketStatus.2

def rewritesocket (pg : Pg) : Pg :=
  let (status, pg) := pg.writesocketStatus
  if status = 0 then { pg with epollout := false } else pg

/-! ## Replies -/

def putCommandComplete (pg : Pg) (tag : Bytes) : Pg :=
  (pg.putString tag).replymsg 'C'

/-- The three fields of an error or a notice. -/
def putFields (pg : Pg) (severity code message : String) : Pg :=
  (((((((pg.putChar 'S').putString (ascii severity)).putChar 'C').putString
    (ascii code)).putChar 'M').putString (ascii message)).put [0])

def putErrorResponse (pg : Pg) (severity code message : String) : Pg :=
  ((pg.putFields severity code message).replymsg 'E').writesocket

def putNoticeResponse (pg : Pg) (severity code message : String) : Pg :=
  (pg.putFields severity code message).replymsg 'N'

/-- The type and the length of a field, of those that have one. -/
def typeOf : Fieldtype → Option (Int × Int)
  | .int | .uint => some (20, 8)
  | .bool => some (16, 1)
  | .float => some (701, 8)
  | .char => some (18, 1)
  | .charx => some (1042, -2)
  | .varchar => some (1043, -2)
  | .nofieldtype => none

/-- The fields from some one on. A type that there is none of ends it all. -/
def putFieldDescriptions : List Fieldtypename → Pg → Pg
  | [], pg => pg.replymsg 'T'
  | field :: fields, pg =>
      let pg := ((pg.putString field.name).putInt32 0).putInt16 0
      match typeOf field.type with
      | none => pg
      | some (oid, len) =>
          putFieldDescriptions fields
            ((((pg.putInt32 oid).putInt16 len).putInt32 0).putInt16 0)

/-- `int16_t numfields`, as a number of rounds. -/
def numfields (fields : List Fieldtypename) : Nat :=
  if fields.length % 2 ^ 16 < 2 ^ 15 then fields.length % 2 ^ 16 else 0

def putRowDescription (pg : Pg) : Pg :=
  let fields := pg.results.selectFields
  putFieldDescriptions (fields.take (numfields fields))
    (pg.putInt16 fields.length)

/-- A value as text, where there is one. -/
def textOf (host : Host) (type : Fieldtype) (val : FieldValue) :
    Option Bytes :=
  match type with
  | .int => some (decimal val.value.integer)
  | .uint => some (decimal val.value.uinteger)
  | .bool => some (ascii (if val.value.boolean then "t" else "f"))
  | .float => some (host.floatText val.value)
  | .char => some [UInt8.ofNat val.value.character.toNat]
  | .charx | .varchar => some val.str
  | .nofieldtype => none

/-- The values of a row. -/
def putValues (host : Host) :
    List Fieldtypename → List FieldValue → Pg → Pg
  | [], _, pg => pg.replymsg 'D'
  | field :: fields, values, pg =>
      let val := values.headD {}
      if val.isnull then putValues host fields values.tail (pg.putInt32 (-1))
      else
        match textOf host field.type val with
        | none => pg
        | some text =>
            putValues host fields values.tail
              ((pg.putInt32 text.length).put text)

def putDataRow (host : Host) (pg : Pg) (row : List FieldValue) : Pg :=
  let fields := pg.results.selectFields
  putValues host (fields.take (numfields fields)) row
    (pg.putInt16 fields.length)

def putDataRows (host : Host) (pg : Pg) : Pg :=
  pg.results.selectResults.foldl (putDataRow host) pg

def errorStatus (pg : Pg) (status : Int) : Pg :=
  -- APISTATUS_NOTOK, APISTATUS_UNIQUECONSTRAINT, APISTATUS_LOCK
  if status = 1 then
    pg.putErrorResponse "ERROR" "42000" "generic InfiniSQL error"
  else if status = 6 then
    pg.putErrorResponse "ERROR" "23000" "integrity_constraint_violation"
  else if status = 9 then
    pg.putErrorResponse "ERROR" "55P03" "lock not available"
  else
    pg.putErrorResponse "ERROR" "42000"
      "syntax_error_or_access_rule_violation"

def putParameterStatus (pg : Pg) (name : String) (value : Bytes) : Pg :=
  ((pg.putString (ascii name)).putString value).replymsg 'S'

/-- `putAuthenticationOk`, less the `writesocket`. -/
def putGreeting (host : Host) (pg : Pg) : Pg :=
  let pg := (pg.putInt32 0).replymsg 'R'
  let pg := pg.putParameterStatus "application_name" []
  let pg := pg.putParameterStatus "client_encoding" (ascii "LATIN1")
  let pg := pg.putParameterStatus "DateStyle" (ascii "ISO, MDY")
  let pg := pg.putParameterStatus "integer_datetimes" (ascii "on")
  let pg := pg.putParameterStatus "IntervalStyle" (ascii "postgres")
  let pg := pg.putParameterStatus "is_superuser" (ascii "off")
  let pg := pg.putParameterStatus "server_encoding" (ascii "LATIN1")
  let pg := pg.putParameterStatus "server_version" (ascii "9.2.4")
  let pg := pg.putParameterStatus "session_authorization"
    (pg.startupArgs (ascii "username"))
  let pg := pg.putParameterStatus "standard_conforming_strings" (ascii "on")
  let pg := pg.putParameterStatus "TimeZone" host.tzname
  let pg := ((pg.putInt32 1).putInt32 2).replymsg 'K'
  (pg.putChar 'I').replymsg 'Z'

def putAuthenticationOk (host : Host) (pg : Pg) : Pg :=
  { (pg.putGreeting host).writesocket with state := .established }

def continueLogin (host : Host) (pg : Pg) (ok : Bool) : Pg :=
  if ok then pg.putAuthenticationOk host
  else pg.putErrorResponse "FATAL" "28P01" "authenticationfailure"

/-! ## Transactions -/

/-- `delete transactionPtr`. -/
def deleteTransaction (pg : Pg) : Pg := { pg with transactionPtr := none }

def continuePgCommitimplicit (pg : Pg) : Pg :=
  pg.deleteTransaction.writesocket

def continuePgCommitexplicit (pg : Pg) : Pg :=
  { (pg.putCommandComplete (ascii "COMMIT")).deleteTransaction.writesocket with
    outbuf := [] }

def continuePgRollbackimplicit (pg : Pg) : Pg :=
  { pg with outbuf := [] }.deleteTransaction

def continuePgRollbackexplicit (pg : Pg) : Pg :=
  { (pg.deleteTransaction.putCommandComplete
      (ascii "ROLLBACK")).writesocket with
    outbuf := [] }

/-- What waits for the engines. -/
def await (pg : Pg) (pending : Pending) : Pg :=
  { pg with pending := pg.pending ++ [pending] }

def sqlcommitimplicit (pg : Pg) : Pg :=
  match pg.transactionPtr with
  | none => pg.continuePgCommitimplicit
  | some _ => pg.await .commitimplicit

def sqlcommitexplicit (pg : Pg) : Pg :=
  match pg.transactionPtr with
  | none => pg.continuePgCommitexplicit
  | some _ => pg.await .commitexplicit

/-- A rollback, if there is a transaction, comes back within the call. -/
def sqlrollbackimplicit (pg : Pg) : Pg :=
  let pg :=
    if pg.isintransactionblock then { pg with state := .aborted } else pg
  pg.continuePgRollbackimplicit

def sqlrollbackexplicit (pg : Pg) : Pg := pg.continuePgRollbackexplicit

/-! ## Statements that have come back -/

/-- The implicit commit of a statement outside a block, or its answer. -/
def finish (pg : Pg) : Pg :=
  if !pg.isintransactionblock &&
      (pg.session_isautocommit || pg.command_autocommit) then
    pg.sqlcommitimplicit
  else pg.writesocket

def failed (pg : Pg) (status : Int) : Pg :=
  pg.sqlrollbackimplicit.errorStatus status

def putRows (host : Host) (pg : Pg) : Pg :=
  (pg.putRowDescription.putDataRows host).putCommandComplete
    (ascii "SELECT " ++ decimal pg.results.selectResults.length)

def continuePgFunc (host : Host) (pg : Pg) : Pg :=
  let pg := { pg with transactionPtr := pg.results.transactionPtr }
  let status := pg.results.statementStatus
  match pg.results.cmdtype with
  | .select | .storedprocedure =>
      if status = 0 then (pg.putRows host).finish else pg.failed status
  | .insert =>
      if status = 0 then (pg.putCommandComplete (ascii "INSERT 0 1")).finish
      else pg.failed status
  | .update =>
      if status = 0 then
        (pg.putCommandComplete
          (ascii "UPDATE " ++ decimal pg.results.statementResults)).finish
      else pg.failed 1
  | .delete =>
      if status = 0 then
        (pg.putCommandComplete
          (ascii "DELETE " ++ decimal pg.results.statementResults)).finish
      else pg.failed status
  | .begin =>
      match pg.transactionPtr with
      | none =>
          ({ pg with
              transactionPtr := some pg.nexttransactionid
              nexttransactionid := pg.nexttransactionid + 1
              isintransactionblock := true }.putCommandComplete
            (ascii "BEGIN")).writesocket
      | some _ =>
          ((pg.putNoticeResponse "WARNING" "25001"
            "there is already a transaction in progress").putCommandComplete
            (ascii "BEGIN")).writesocket
  | .commit =>
      match pg.transactionPtr with
      | some _ => { pg with isintransactionblock := false }.sqlcommitexplicit
      | none =>
          ((pg.putNoticeResponse "WARNING" "25P01"
            "there is no transaction in progress").putCommandComplete
            (ascii "COMMIT")).writesocket
  | .rollback =>
      match pg.transactionPtr with
      | some _ => { pg with isintransactionblock := false }.sqlrollbackexplicit
      | none =>
          ((pg.putNoticeResponse "WARNING" "25P01"
            "there is no transaction in progress").putCommandComplete
            (ascii "ROLLBACK")).writesocket
  | .none | .set | .create | .drop | .alter => pg

/-! ## `Statement` -/

/-- What a statement comes back with. -/
structure Outcome where
  statementStatus : Int
  /-- The number of rows that were updated or deleted. -/
  statementResults : Nat := 0
  selectFields : List Fieldtypename := []
  selectResults : List (List FieldValue) := []

/-- `Statement::reenter`. -/
def reenter (host : Host) (pg : Pg) (transactionPtr : Option Nat)
    (status : Int) : Pg :=
  { pg with
    results := { pg.results with
      transactionPtr, statementStatus := status } }.continuePgFunc host

/-- `Statement::startQuery` after the last query, then `reenter`. -/
def reenterOk (host : Host) (pg : Pg) (type : Cmd)
    (transactionPtr : Option Nat) (outcome : Outcome) : Pg :=
  let results := { pg.results with cmdtype := type }
  let results : Results :=
    match type with
    | .select =>
        { results with
          selectFields := outcome.selectFields
          selectResults := outcome.selectResults }
    | .insert =>
        { results with statementResults := results.statementResults + 1 }
    | .update | .delete =>
        { results with statementResults := outcome.statementResults }
    | _ => results
  { pg with results }.reenter host transactionPtr 0

/-- `Statement::execute` for these: in the transaction there is, or in a new
one. -/
def executeInTransaction (pg : Pg) (stmt : Statement) : Pg :=
  match pg.transactionPtr with
  | some tx => pg.await (.statement stmt (some tx))
  | none =>
      { pg with nexttransactionid := pg.nexttransactionid + 1 }.await
        (.statement stmt (some pg.nexttransactionid))

/-- `Statement::execute`. An `INSERT` whose row cannot be made has no
result. -/
def execute (host : Host) (pg : Pg) (stmt : Statement) : Option Pg :=
  let pg := { pg with results := { pg.results with cmdtype := stmt.type } }
  match stmt.type with
  | .select | .update | .delete => some (pg.executeInTransaction stmt)
  | .insert =>
      if stmt.complete then some (pg.executeInTransaction stmt) else none
  | .storedprocedure =>
      if stmt.loaded then some (pg.await (.statement stmt none))
      else some (pg.reenter host pg.transactionPtr 1)
  | .begin | .commit | .rollback =>
      some (pg.reenterOk host stmt.type pg.transactionPtr ⟨0, 0, [], []⟩)
  | .none | .set | .create | .drop | .alter =>
      some (pg.reenter host pg.transactionPtr 1)

def executeStatement (host : Host) (pg : Pg) (query : Option Statement) :
    Option Pg :=
  match query with
  | none => some (pg.putErrorResponse "ERROR" "42601" "syntax error")
  | some stmt =>
      if stmt.type.isTransactional && !stmt.resolves then
        some (pg.sqlrollbackimplicit.putErrorResponse "ERROR" "42704"
          "table or column does not exist")
      else
        { pg with
          results := {}
          command_autocommit := pg.transactionPtr.isNone }.execute host stmt

/-- A query in `STATE_ABORTED`. -/
def contAborted (pg : Pg) (query : Option Statement) : Pg :=
  match query with
  | none => pg.putErrorResponse "ERROR" "42601" "syntax error, aborted"
  | some stmt =>
      if stmt.type = .commit ∨ stmt.type = .rollback then
        { pg.putCommandComplete (ascii "ROLLBACK") with
          state := .established
          isintransactionblock := false }.writesocket
      else
        pg.putErrorResponse "ERROR" "25P02"
          ("current transaction is aborted, commands ignored until " ++
            "end of transaction block")

/-- A statement comes back, or a commit. -/
def returns (host : Host) (pg : Pg) (pending : Pending) (outcome : Outcome) :
    Pg :=
  match pending with
  | .statement stmt (some tx) =>
      if outcome.statementStatus = 0 then
        pg.reenterOk host stmt.type (some tx) outcome
      else pg.reenter host (some tx) outcome.statementStatus
  | .statement _ none =>
      { pg with
        results := { pg.results with
          statementStatus := outcome.statementStatus
          selectFields := outcome.selectFields
          selectResults := outcome.selectResults } }.continuePgFunc host
  | .commitimplicit => pg.continuePgCommitimplicit
  | .commitexplicit => pg.continuePgCommitexplicit

end Pg

/-! ## `cont` -/

/-- A command that has been read, `EPOLLOUT`, or something that the session
waits for. -/
inductive Event
  | sslRequest
  | startup (startupArgs : Bytes → Bytes)
  | password
  | login (ok : Bool)
  | query (query : Option Statement)
  | epollout
  /-- What the session waits for at `i` comes back. -/
  | returns (i : Nat) (outcome : Pg.Outcome)

/-- Each command begins with an empty `outbuf`. -/
def handle (host : Host) (pg : Pg) : Event → Option Pg
  | .sslRequest =>
      if pg.state = .begin then
        some { pg with outbuf := ascii "N" }.writesocket
      else none
  | .startup startupArgs =>
      if pg.state = .begin then
        some { (({ pg with
            outbuf := [], startupArgs }.putInt32 3).replymsg
              'R').writesocket with
          state := .auth }
      else none
  | .password =>
      if pg.state = .auth then some { pg with outbuf := [] } else none
  | .login ok =>
      if pg.state = .auth then some (pg.continueLogin host ok) else none
  | .query query =>
      match pg.state with
      | .established => { pg with outbuf := [] }.executeStatement host query
      | .aborted => some ({ pg with outbuf := [] }.contAborted query)
      | _ => none
  | .epollout => some pg.rewritesocket
  | .returns i outcome =>
      match pg.pending[i]? with
      | none => none
      | some pending =>
          some ({ pg with pending := pg.pending.eraseIdx i }.returns host
            pending outcome)

/-- An event, and what the socket does then. -/
def step (host : Host) (pg : Pg) (e : Event × List Send) : Option Pg :=
  handle host { pg with sends := e.2 } e.1

end Infinisql.Ref.Output
