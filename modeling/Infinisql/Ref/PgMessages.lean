import Infinisql.Ref.PgLogin

/-!
# What a session takes from its input

`Pg::cont` gathers bytes until a command is complete, and then the branch of
its state takes what it needs from them. The model of logins has that for the
startup parameters and for the password. Here are the others: the text of a
query, and the command that no branch knows, which is left as it is.

A conversation is one session with its client. Behind a read, and before the
next, comes what the session waits for: the reply to its login, and the end of
its statement, of which only the state it leaves is seen here. The socket
takes whatever is written to it.
-/

namespace Infinisql.Ref

/-- What a branch of `cont` has taken from a command. -/
inductive Taken
  | sslRequest
  | startup (startupArgs : Bytes → Option Bytes)
  | password (password : Bytes)
  | query (query : Bytes)
  /-- "don't know how to handle cmdtype" -/
  | unknown (cmdtype : UInt8) (inbuf : Bytes)

namespace Pg

/-- The text of a query. What `get` returns is not looked at. -/
def getQuery (inbuf : Bytes) : Bytes :=
  match getString inbuf 0 with
  | none => []
  | some (query, _) => query

/-- `STATE_BEGIN`, with a command complete. -/
def takenBegin (pg : Pg) : Option Taken :=
  match pg.contBegin true with
  | .goOn pg' =>
      if pg.size = 8 then some .sslRequest
      else some (.startup pg'.startupArgs)
  | _ => none

/-- `STATE_AUTH`. -/
def takenAuth (pg : Pg) : Option Taken :=
  match pg.contAuth with
  | .login _ _ _ password => some (.password password)
  | _ => none

/-- `STATE_ESTABLISHED` and `STATE_ABORTED`. -/
def takenCommand (pg : Pg) : Option Taken :=
  if pg.pgcmdtype = 81 then some (.query (getQuery pg.inbuf))
  else if pg.pgcmdtype = 88 then none
  else some (.unknown pg.pgcmdtype pg.inbuf)

/-- What `cont` takes, after `readsocket`. -/
def taken (pg : Pg) (newdata : Bytes) : Option Taken :=
  if pg.state = .exiting ∨ newdata.length = 0 then none
  else
    match pg.initcmd newdata with
    | (.bogus, _) | (.incomplete, _) => none
    | (.complete, pg) =>
        match pg.state with
        | .begin => pg.takenBegin
        | .auth => pg.takenAuth
        | .established | .aborted => pg.takenCommand
        | .exiting => none

/-- The session when the statement of a query has come back. -/
def afterQuery (pg : Pg) (aborted : Bool) : Option Taken → Pg
  | some (.query _) =>
      { pg with state := if aborted then .aborted else .established }
  | _ => pg

end Pg

/-- What a read brings, the reply to the login, if it asks for one, and whether
the statement, if it starts one, leaves the session aborted. -/
structure Arrival where
  newdata : Bytes
  login : UserReply
  aborted : Bool

/-- The session, as long as its socket is open, and what it has taken. -/
structure Conversation where
  pg : Option Pg
  taken : List Taken

namespace Conversation

def start (sockfd : Int) : Conversation := ⟨some (.new sockfd), []⟩

/-- `cont` of the session, and what comes before the next read. -/
def read (c : Conversation) (a : Arrival) : Conversation :=
  match c.pg with
  | none => c
  | some pg =>
      let taken := pg.taken a.newdata
      match pg.cont a.newdata true with
      | .closesocket => ⟨none, c.taken ++ taken.toList⟩
      | .goOn pg =>
          ⟨some (pg.afterQuery a.aborted taken), c.taken ++ taken.toList⟩
      | .login pg _ _ _ =>
          let (pg, isopen) := pg.continueLogin a.login true
          ⟨if isopen then some pg else none, c.taken ++ taken.toList⟩

end Conversation

end Infinisql.Ref
