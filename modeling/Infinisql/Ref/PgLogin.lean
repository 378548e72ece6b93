import Infinisql.Ref.UserSchemaMgr

/-!
# Logins over the PostgreSQL protocol

A `Pg` object is the session of one connection. `TransactionAgent` finds it by
the socket descriptor, in `Pgs`. The password message of a session becomes an
`Operation`, entered in `pendingOperations` under an id of its own, and a
request to `UserSchemaMgr` that carries the id. What the `Operation` keeps of
its session is the descriptor. When the connection is closed, so is the
descriptor, and the next connection may get it.

Bytes are read as the protocol has them. `UserSchemaMgr` is not run here: a
reply has any content, and comes once for each request. What a socket does is
in the events: the bytes that were read, whether what was sent got away,
errors and hang-ups. Statements of an established session, its `writesocket`
and what it does after `EPOLLOUT`, end in a hang-up or do not touch the login,
and are left out.
-/

namespace Infinisql.Ref

/-- `Pg::state`. -/
inductive PgState
  | begin
  | auth
  | established
  | aborted
  | exiting
  deriving DecidableEq, Repr

/-- A session, less what only its statements use. -/
structure Pg where
  state : PgState
  sockfd : Int
  pgcmdtype : UInt8
  size : Nat
  inbuf : Bytes
  startupArgs : Bytes → Option Bytes
  userid : Int
  domainid : Int

namespace Pg

/-- The constructor, less `Pgs[sockfd] = this`. -/
def new (sockfd : Int) : Pg :=
  { state := .begin
    sockfd := sockfd
    pgcmdtype := 0
    size := 0
    inbuf := []
    startupArgs := fun _ => none
    userid := -1
    domainid := -1 }

/-! ## Bytes -/

/-- `be32toh` of the four bytes at `pos`. -/
def be32 (bytes : Bytes) (pos : Nat) : Nat :=
  ((bytes.drop pos).take 4).foldl (fun n b => 256 * n + b.toNat) 0

/-- `get(int32_t *)`. -/
def getInt32 (inbuf : Bytes) (pos : Nat) : Option (Nat × Nat) :=
  if pos + 4 > inbuf.length then none else some (be32 inbuf pos, pos + 4)

/-- `get(string &)`: up to the next zero byte, if there is one. -/
def getString (inbuf : Bytes) (pos : Nat) : Option (Bytes × Nat) :=
  let rest := inbuf.drop pos
  let val := rest.takeWhile (· ≠ 0)
  if val.length < rest.length then some (val, pos + val.length + 1) else none

/-- What `initcmd` returns: -1, 0 and 1. -/
inductive Initcmd
  | bogus
  | incomplete
  | complete
  deriving DecidableEq, Repr

/-- Whether the whole request has been received. -/
def received (pg : Pg) : Initcmd × Pg :=
  if pg.inbuf.length + 4 = pg.size then (.complete, pg)
  else if pg.inbuf.length + 4 < pg.size then (.incomplete, pg)
  else (.bogus, pg)

def initcmd (pg : Pg) (newdata : Bytes) : Initcmd × Pg :=
  if pg.size = 0 then
    let newdata := pg.inbuf ++ newdata
    if newdata.length < (if pg.state = .begin then 4 else 5) then
      (.incomplete, { pg with inbuf := newdata })
    else if pg.state = .begin then
      { pg with size := be32 newdata 0, inbuf := newdata.drop 4 }.received
    else
      { pg with
        pgcmdtype := newdata.getD 0 0
        size := be32 newdata 1
        inbuf := newdata.drop 5 }.received
  else { pg with inbuf := pg.inbuf ++ newdata }.received

/-! ## `cont` -/

/-- "user" -/
def user : Bytes := [117, 115, 101, 114]

/-- "database" -/
def database : Bytes := [100, 97, 116, 97, 98, 97, 115, 101]

/-- The loop over the startup parameters. Each round reads two zero bytes at
least, so there are no more rounds than bytes. -/
def getStartupArgs (inbuf : Bytes) :
    Nat → Nat → (Bytes → Option Bytes) → Option (Bytes → Option Bytes)
  | 0, _, _ => none
  | rounds + 1, pos, startupArgs =>
      if inbuf.getD pos 0 = 0 then some startupArgs
      else
        match getString inbuf pos with
        | none => none
        | some (paramstr, pos) =>
            match getString inbuf pos with
            | none => none
            | some (valstr, pos) =>
                getStartupArgs inbuf rounds pos
                  (Function.update startupArgs paramstr (some valstr))

/-- What a session does with a request: it closes the socket, or goes on, or
goes on and asks for a login. -/
inductive Cont
  | closesocket
  | goOn (pg : Pg)
  | login (pg : Pg) (username domainname password : Bytes)

/-- `STATE_BEGIN`. An ssl request is refused. -/
def contBegin (pg : Pg) (sent : Bool) : Cont :=
  match getInt32 pg.inbuf 0 with
  | none => .closesocket
  | some (word, pos) =>
      if pg.size = 8 then
        if word ≠ 80877103 ∨ !sent then .closesocket
        else .goOn { pg with size := 0 }
      else if word ≠ 196608 then .closesocket
      else
        match getStartupArgs pg.inbuf (pg.inbuf.length + 1) pos
            pg.startupArgs with
        | none => .closesocket
        | some startupArgs =>
            match startupArgs user with
            | none => .closesocket
            | some name =>
                if !sent then .closesocket
                else
                  let startupArgs :=
                    match startupArgs database with
                    | none => Function.update startupArgs database (some name)
                    | some _ => startupArgs
                  .goOn { pg with
                    startupArgs := startupArgs
                    state := .auth
                    size := 0
                    inbuf := [] }

/-- `STATE_AUTH`. -/
def contAuth (pg : Pg) : Cont :=
  if pg.pgcmdtype ≠ 112 then .closesocket
  else
    match getString pg.inbuf 0 with
    | none => .closesocket
    | some (password, _) =>
        .login pg ((pg.startupArgs user).getD [])
          ((pg.startupArgs database).getD []) password

/-- `STATE_ESTABLISHED` and `STATE_ABORTED`: a query is taken out of the
buffer, and 'X' ends the session. -/
def contCommand (pg : Pg) : Cont :=
  if pg.pgcmdtype = 81 then .goOn { pg with size := 0, inbuf := [] }
  else if pg.pgcmdtype = 88 then .closesocket
  else .goOn pg

/-- `cont`, after `readsocket`. `sent` is whether what it writes got away. -/
def cont (pg : Pg) (newdata : Bytes) (sent : Bool) : Cont :=
  if pg.state = .exiting ∨ newdata.length = 0 then .goOn pg
  else
    match pg.initcmd newdata with
    | (.bogus, _) => .closesocket
    | (.incomplete, pg) => .goOn pg
    | (.complete, pg) =>
        match pg.state with
        | .begin => pg.contBegin sent
        | .auth => pg.contAuth
        | .established | .aborted => pg.contCommand
        | .exiting => .goOn pg

/-- `continueLogin`, and whether the session is still open then. -/
def continueLogin (pg : Pg) (reply : UserReply) (sent : Bool) : Pg × Bool :=
  if reply.ok then
    let pg := { pg with userid := reply.userid, domainid := reply.domainid }
    if sent then
      ({ pg with state := .established, size := 0, inbuf := [] }, true)
    else (pg, false)
  else (pg, sent)

end Pg

/-! ## The transaction agent -/

/-- What the reply is found by. -/
structure Operation where
  sockfd : Int
  deriving DecidableEq, Repr

/-- The message to `UserSchemaMgr`. -/
structure LoginRequest where
  operationid : Int
  username : Bytes
  domainname : Bytes
  password : Bytes
  deriving DecidableEq, Repr

/-- The agent, the `Pg` objects that it made, and the requests that have not
been answered. The last two members are history: which session's password
message an operation came from, and what it was answered. No step reads
them. -/
structure LoginAgent where
  pgs : Int → Option Nat
  objects : Nat → Pg
  nextObject : Nat
  pendingOperations : Int → Option Operation
  operationidcounter : Int
  requests : List LoginRequest
  asked : Int → Option Nat
  answered : Int → Option UserReply

/-- A connection is accepted, or bytes are read from it, or it fails; or the
reply to an operation arrives. -/
inductive LoginEvent
  | socketconnected (sockfd : Int)
  | socket (sockfd : Int) (newdata : Bytes) (sent : Bool)
  | hangup (sockfd : Int)
  | operation (operationid : Int) (reply : UserReply) (sent : Bool)
  deriving DecidableEq

namespace LoginAgent

/-- `operationidcounter` starts wherever it does. -/
def new (operationidcounter : Int) : LoginAgent :=
  { pgs := fun _ => none
    objects := fun _ => .new (-1)
    nextObject := 0
    pendingOperations := fun _ => none
    operationidcounter := operationidcounter
    requests := []
    asked := fun _ => none
    answered := fun _ => none }

/-- `new class Pg`. -/
def connect (ta : LoginAgent) (sockfd : Int) : LoginAgent :=
  { ta with
    pgs := Function.update ta.pgs sockfd (some ta.nextObject)
    objects := Function.update ta.objects ta.nextObject (.new sockfd)
    nextObject := ta.nextObject + 1 }

def setObject (ta : LoginAgent) (id : Nat) (pg : Pg) : LoginAgent :=
  { ta with objects := Function.update ta.objects id pg }

/-- `closesocket` of a session. -/
def closesocket (ta : LoginAgent) (id : Nat) : LoginAgent :=
  let pg := ta.objects id
  { ta with
    pgs := Function.update ta.pgs pg.sockfd none
    objects := Function.update ta.objects id
      { pg with state := .exiting, sockfd := -1 } }

/-- `new class Operation` of a session, and the request. -/
def ask (ta : LoginAgent) (id : Nat) (username domainname password : Bytes) :
    LoginAgent :=
  let operationid := ta.operationidcounter + 1
  { ta with
    operationidcounter := operationid
    pendingOperations := Function.update ta.pendingOperations operationid
      (some { sockfd := (ta.objects id).sockfd })
    requests := ta.requests ++ [{ operationid, username, domainname, password }]
    asked := Function.update ta.asked operationid (some id) }

/-- `pendingOperations.erase`. -/
def erase (ta : LoginAgent) (operationid : Int) : LoginAgent :=
  { ta with
    pendingOperations := Function.update ta.pendingOperations operationid
      none }

/-- `cont` of the session of a descriptor. -/
def contSocket (ta : LoginAgent) (id : Nat) (newdata : Bytes) (sent : Bool) :
    LoginAgent :=
  match (ta.objects id).cont newdata sent with
  | .closesocket => ta.closesocket id
  | .goOn pg => ta.setObject id pg
  | .login pg username domainname password =>
      (ta.setObject id pg).ask id username domainname password

/-- `Operation::handleOperation`. The session is the one that the descriptor
has now. -/
def handleOperation (ta : LoginAgent) (operationid : Int) (op : Operation)
    (reply : UserReply) (sent : Bool) : LoginAgent :=
  match ta.pgs op.sockfd with
  | none => ta
  | some id =>
      let (pg, isopen) := (ta.objects id).continueLogin reply sent
      let ta := ta.setObject id pg
      (if isopen then ta else ta.closesocket id).erase operationid

/-- The reply leaves the network. -/
def answer (ta : LoginAgent) (operationid : Int) (reply : UserReply) :
    LoginAgent :=
  { ta with
    requests := ta.requests.filter (·.operationid ≠ operationid)
    answered := Function.update ta.answered operationid (some reply) }

def step (ta : LoginAgent) : LoginEvent → Option LoginAgent
  | .socketconnected sockfd =>
      match ta.pgs sockfd with
      | none => some (ta.connect sockfd)
      | some _ => some ta
  | .socket sockfd newdata sent =>
      match ta.pgs sockfd with
      | none => some ta
      | some id => some (ta.contSocket id newdata sent)
  | .hangup sockfd =>
      match ta.pgs sockfd with
      | none => some ta
      | some id => some (ta.closesocket id)
  | .operation operationid reply sent =>
      -- Nothing is answered that was not asked, and nothing twice.
      if ta.requests.any (·.operationid = operationid) then
        let ta := ta.answer operationid reply
        match ta.pendingOperations operationid with
        | none => some ta
        | some op => some (ta.handleOperation operationid op reply sent)
      else some ta

end LoginAgent

end Infinisql.Ref
