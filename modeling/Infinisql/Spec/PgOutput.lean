import Infinisql.Ref.PgOutput

/-!
# What a client is to read

A message to the client is a type, a length and a body. A query gets some
messages and then `ReadyForQuery`, and which these are depends on the query,
on what its statement comes back with, and on where the session stands when
the query arrives: whether its block has failed, whether there is a
transaction, and whether there is a block. Buffers and sockets have no part in
it. The client is to read these replies, in the order of the queries, and
nothing else, however the socket takes them.
-/

namespace Infinisql.Spec.Output

open Infinisql.Ref (Bytes FieldValue PgState)
open Infinisql.Ref.Output
open Infinisql.Ref.Session (Cmd Statement)

/-! ## Messages -/

structure BackendMessage where
  type : Char
  body : Bytes

def BackendMessage.bytes (m : BackendMessage) : Bytes :=
  ascii m.type.toString ++ htobe 4 (m.body.length + 4) ++ m.body

def bytes (ms : List BackendMessage) : Bytes :=
  ms.flatMap BackendMessage.bytes

def fields (severity code message : String) : Bytes :=
  ascii "S" ++ (ascii severity ++ [0]) ++ ascii "C" ++ (ascii code ++ [0]) ++
    ascii "M" ++ (ascii message ++ [0]) ++ [0]

def errorResponse (severity code message : String) : BackendMessage :=
  ⟨'E', fields severity code message⟩

def noticeResponse (severity code message : String) : BackendMessage :=
  ⟨'N', fields severity code message⟩

def commandComplete (tag : Bytes) : BackendMessage := ⟨'C', tag ++ [0]⟩

def readyForQuery (status : Char) : BackendMessage :=
  ⟨'Z', ascii status.toString⟩

/-- Name, type and length of a field. -/
def description (field : Fieldtypename) : Bytes :=
  (field.name ++ [0]) ++ htobe 4 0 ++ htobe 2 0 ++
    match Pg.typeOf field.type with
    | none => []
    | some (oid, len) =>
        htobe 4 oid ++ htobe 2 len ++ htobe 4 0 ++ htobe 2 0

def rowDescription (fields : List Fieldtypename) : BackendMessage :=
  ⟨'T', htobe 2 fields.length ++
    (fields.take (Pg.numfields fields)).flatMap description⟩

/-- The values of a row, each with its length, and NULL with the length -1. -/
def values (host : Host) : List Fieldtypename → List FieldValue → Bytes
  | [], _ => []
  | field :: fields, vals =>
      let val := vals.headD {}
      (if val.isnull then htobe 4 (-1)
        else
          let text := (Pg.textOf host field.type val).getD []
          htobe 4 text.length ++ text) ++ values host fields vals.tail

def dataRow (host : Host) (fields : List Fieldtypename)
    (row : List FieldValue) : BackendMessage :=
  ⟨'D', htobe 2 fields.length ++
    values host (fields.take (Pg.numfields fields)) row⟩

/-! ## Replies -/

/-- Where a session stands. -/
structure Standing where
  aborted : Bool
  transaction : Bool
  block : Bool

def standing (pg : Pg) : Standing where
  aborted := pg.state = .aborted
  transaction := pg.transactionPtr.isSome
  block := pg.isintransactionblock

/-- The messages before `ReadyForQuery`, and its status. -/
abbrev Answer := List BackendMessage × Char

namespace Standing

variable (host : Host) (s : Standing)

/-- The status when nothing has changed. -/
def status : Char := if s.transaction then 'T' else 'I'

/-- A failure rolls back, and a block has failed with it. -/
def failed (code message : String) : Answer :=
  ([errorResponse "ERROR" code message], if s.block then 'E' else 'I')

def failedWith (status : Int) : Answer :=
  if status = 1 then s.failed "42000" "generic InfiniSQL error"
  else if status = 6 then s.failed "23000" "integrity_constraint_violation"
  else if status = 9 then s.failed "55P03" "lock not available"
  else s.failed "42000" "syntax_error_or_access_rule_violation"

/-- A statement outside a block is committed with its answer. -/
def succeeded (messages : List BackendMessage) : Answer :=
  (messages, if s.block then 'T' else 'I')

def rows (outcome : Pg.Outcome) : List BackendMessage :=
  rowDescription outcome.selectFields ::
    (outcome.selectResults.map (dataRow host outcome.selectFields) ++
      [commandComplete (ascii "SELECT " ++
        decimal outcome.selectResults.length)])

/-- BEGIN, COMMIT and ROLLBACK, with a warning where they do nothing. -/
def transactional (nothing : Bool) (code message tag : String)
    (status : Char) : Answer :=
  (if nothing then
      [noticeResponse "WARNING" code message, commandComplete (ascii tag)]
    else [commandComplete (ascii tag)], status)

/-- What a statement is answered. There is no answer before it has come back,
and none at all to some types. -/
def answerStatement (stmt : Statement) (outcome : Option Pg.Outcome) :
    Option Answer :=
  match stmt.type with
  | .begin =>
      some (transactional s.transaction "25001"
        "there is already a transaction in progress" "BEGIN" 'T')
  | .commit =>
      some (transactional (!s.transaction) "25P01"
        "there is no transaction in progress" "COMMIT" 'I')
  | .rollback =>
      some (transactional (!s.transaction) "25P01"
        "there is no transaction in progress" "ROLLBACK" 'I')
  | .select =>
      outcome.map fun o =>
        if o.statementStatus = 0 then s.succeeded (rows host o)
        else s.failedWith o.statementStatus
  | .insert =>
      outcome.map fun o =>
        if o.statementStatus = 0 then
          s.succeeded [commandComplete (ascii "INSERT 0 1")]
        else s.failedWith o.statementStatus
  | .update =>
      outcome.map fun o =>
        if o.statementStatus = 0 then
          s.succeeded [commandComplete
            (ascii "UPDATE " ++ decimal o.statementResults)]
        else s.failedWith 1
  | .delete =>
      outcome.map fun o =>
        if o.statementStatus = 0 then
          s.succeeded [commandComplete
            (ascii "DELETE " ++ decimal o.statementResults)]
        else s.failedWith o.statementStatus
  | .storedprocedure =>
      if stmt.loaded then
        outcome.map fun o =>
          if o.statementStatus = 0 then (rows host o, 'I')
          else s.failedWith o.statementStatus
      else some (s.failedWith 1)
  | .none | .set | .create | .drop | .alter => none

/-- A query in a block that has failed. -/
def answerAborted (query : Option Statement) : Answer :=
  match query with
  | none =>
      ([errorResponse "ERROR" "42601" "syntax error, aborted"], 'E')
  | some stmt =>
      if stmt.type = .commit ∨ stmt.type = .rollback then
        ([commandComplete (ascii "ROLLBACK")], s.status)
      else
        ([errorResponse "ERROR" "25P02"
          ("current transaction is aborted, commands ignored until " ++
            "end of transaction block")], 'E')

def answer (query : Option Statement) (outcome : Option Pg.Outcome) :
    Option Answer :=
  if s.aborted then some (s.answerAborted query)
  else
    match query with
    | none =>
        some ([errorResponse "ERROR" "42601" "syntax error"], s.status)
    | some stmt =>
        if stmt.type.isTransactional && !stmt.resolves then
          some (s.failed "42704" "table or column does not exist")
        else s.answerStatement host stmt outcome

end Standing

/-- A complete reply. -/
def reply (answer : Answer) : List BackendMessage :=
  answer.1 ++ [readyForQuery answer.2]

/-! ## The greeting -/

def parameterStatus (name : String) (value : Bytes) : BackendMessage :=
  ⟨'S', (ascii name ++ [0]) ++ (value ++ [0])⟩

def authenticationOk (host : Host) (username : Bytes) :
    List BackendMessage :=
  [⟨'R', htobe 4 0⟩,
    parameterStatus "application_name" [],
    parameterStatus "client_encoding" (ascii "LATIN1"),
    parameterStatus "DateStyle" (ascii "ISO, MDY"),
    parameterStatus "integer_datetimes" (ascii "on"),
    parameterStatus "IntervalStyle" (ascii "postgres"),
    parameterStatus "is_superuser" (ascii "off"),
    parameterStatus "server_encoding" (ascii "LATIN1"),
    parameterStatus "server_version" (ascii "9.2.4"),
    parameterStatus "session_authorization" username,
    parameterStatus "standard_conforming_strings" (ascii "on"),
    parameterStatus "TimeZone" host.tzname,
    ⟨'K', htobe 4 1 ++ htobe 4 2⟩]

/-! ## A session and what it was asked -/

inductive Asked
  | sslRequest
  | startup
  | login (ok : Bool) (username : Bytes)
  | query (s : Standing) (query : Option Statement)
      (outcome : Option Pg.Outcome)

/-- The reply, as bytes. -/
def Asked.reply (host : Host) : Asked → Bytes
  | .sslRequest => ascii "N"
  | .startup => BackendMessage.bytes ⟨'R', htobe 4 3⟩
  | .login true username =>
      bytes (Output.reply (authenticationOk host username, 'I'))
  | .login false _ =>
      bytes [errorResponse "FATAL" "28P01" "authenticationfailure"]
  | .query s q o =>
      ((s.answer host q o).map fun a => bytes (Output.reply a)).getD []

/-- Its last message is the `ReadyForQuery`, and no other is one. -/
def Asked.EndsInReady (host : Host) : Asked → Prop
  | .query s q o =>
      ∃ ms status, Asked.reply host (.query s q o) =
          bytes (ms ++ [readyForQuery status]) ∧
        ∀ m ∈ ms, m.type ≠ 'Z'
  | _ => True

structure Line where
  pg : Pg := {}
  asked : List Asked := []

/-- The statement of the last query has come back. -/
def settled (outcome : Pg.Outcome) : Asked → Asked
  | .query s q _ => .query s q (some outcome)
  | a => a

def note (l : Line) : Event → List Asked
  | .sslRequest => l.asked ++ [.sslRequest]
  | .startup _ => l.asked ++ [.startup]
  | .login ok =>
      l.asked ++ [.login ok (l.pg.startupArgs (ascii "username"))]
  | .query query => l.asked ++ [.query (standing l.pg) query none]
  | .returns i outcome =>
      match l.pg.pending[i]? with
      | some (.statement ..) =>
          l.asked.dropLast ++ l.asked.getLast?.toList.map (settled outcome)
      | _ => l.asked
  | .password | .epollout => l.asked

def arrive (host : Host) (l : Line) (e : Event × List Send) : Option Line :=
  (step host l.pg e).map fun pg => ⟨pg, note l e.1⟩

/-- What has been answered: all but what the session waits for. -/
def answered (l : Line) : List Asked :=
  if l.pg.pending = [] then l.asked else l.asked.dropLast

def replies (host : Host) (asked : List Asked) : Bytes :=
  asked.flatMap (Asked.reply host)

/-- What the socket has taken are the replies, as far as it has taken them. -/
structure Integrity (host : Host) (l : Line) : Prop where
  sent : l.pg.sent <+: replies host (answered l)
  drained : l.pg.epollout = false → l.pg.sent = replies host (answered l)
  ready : ∀ a ∈ answered l, a.EndsInReady host

/-- A command arrives when the one before has been answered, and nothing is
left to send, and it is not a query of a type that gets no answer. The socket
does not keep an established session waiting. -/
def InTurn (l : Line) (e : Event × List Send) : Prop :=
  match e.1 with
  | .epollout => l.pg.state = .begin ∨ l.pg.state = .auth
  | .returns .. => True
  | .query query =>
      l.pg.epollout = false ∧ l.pg.pending = [] ∧
        (l.pg.state = .aborted ∨ ∀ stmt, query = some stmt →
          stmt.type ∉ [Cmd.none, .set, .create, .drop, .alter])
  | _ => l.pg.epollout = false

end Infinisql.Spec.Output
