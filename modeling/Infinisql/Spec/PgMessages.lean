import Infinisql.Lib.Codec
import Infinisql.Ref.PgMessages

/-!
# Messages of a client

A client sends messages: perhaps a request for SSL, then its startup message,
then its password, then queries and whatever else. The first two have a length
and a body, the others a type before that. A network hands the bytes over in
pieces, cut anywhere. What a session is to do with them does not depend on the
cuts: it takes each message, once, in order, and the connection stays open.
-/

namespace Infinisql.Spec

open Infinisql.Lib Infinisql.Ref

/-! ## Bytes of a message -/

/-- Four bytes, the highest first. -/
def int32 (n : Nat) : Bytes := (leBytes 4 n).reverse

/-- A string ends in a zero byte. -/
def cstring (s : Bytes) : Bytes := s ++ [0]

inductive ClientMessage
  | sslRequest
  | startup (params : List (Bytes × Bytes))
  | password (password : Bytes)
  | query (query : Bytes)
  /-- Of a type that the session does not know. -/
  | unknown (type : UInt8) (body : Bytes)

namespace ClientMessage

def type : ClientMessage → Option UInt8
  | .sslRequest | .startup _ => none
  | .password _ => some 112
  | .query _ => some 81
  | .unknown type _ => some type

def params (ps : List (Bytes × Bytes)) : Bytes :=
  ps.flatMap fun p => cstring p.1 ++ cstring p.2

def body : ClientMessage → Bytes
  | .sslRequest => int32 80877103
  | .startup ps => int32 196608 ++ (params ps ++ [0])
  | .password w => cstring w
  | .query q => cstring q
  | .unknown _ body => body

/-- Type, if it has one, and length. -/
def header (m : ClientMessage) : Bytes :=
  m.type.toList ++ int32 (m.body.length + 4)

def bytes (m : ClientMessage) : Bytes := m.header ++ m.body

/-- The length fits, strings have no zero byte in them, parameters have names,
and there is a user. The commands that are not known are neither `Query` nor
`Terminate`. -/
def WellFormed (m : ClientMessage) : Prop :=
  m.body.length + 4 < 2 ^ 32 ∧
    match m with
    | .sslRequest => True
    | .startup ps =>
        (∀ p ∈ ps, p.1 ≠ [] ∧ 0 ∉ p.1 ∧ 0 ∉ p.2) ∧ ∃ p ∈ ps, p.1 = Pg.user
    | .password s | .query s => 0 ∉ s
    | .unknown type _ => type ≠ 81 ∧ type ≠ 88

end ClientMessage

/-! ## Order -/

/-- What a client may send next. -/
inductive Phase
  | start
  | startup
  | password
  | commands

def Phase.next : Phase → ClientMessage → Option Phase
  | .start, .sslRequest => some .startup
  | .start, .startup _ | .startup, .startup _ => some .password
  | .password, .password _ => some .commands
  | .commands, .query _ | .commands, .unknown .. => some .commands
  | _, _ => none

def InOrder : Phase → List ClientMessage → Prop
  | _, [] => True
  | phase, m :: ms =>
      m.WellFormed ∧ ∃ phase', phase.next m = some phase' ∧ InOrder phase' ms

/-! ## What is to be taken -/

/-- The parameters by name, the last of each. -/
def setParams (args : Bytes → Option Bytes) (ps : List (Bytes × Bytes)) :
    Bytes → Option Bytes :=
  ps.foldl (fun (args : Bytes → Option Bytes) p =>
    Function.update args p.1 (some p.2)) args

/-- The database is the user's if no other is asked for. -/
def startupArgs (ps : List (Bytes × Bytes)) : Bytes → Option Bytes :=
  let args := setParams (fun _ => none) ps
  match args Pg.database with
  | none => Function.update args Pg.database (args Pg.user)
  | some _ => args

def ClientMessage.taken : ClientMessage → Taken
  | .sslRequest => .sslRequest
  | .startup ps => .startup (startupArgs ps)
  | .password w => .password w
  | .query q => .query q
  | .unknown type body => .unknown type body

/-- The session has taken these messages from what it has read, and is still
open. -/
def Processes (sockfd : Int) (arrivals : List Arrival)
    (ms : List ClientMessage) : Prop :=
  let c := arrivals.foldl Conversation.read (.start sockfd)
  c.pg.isSome ∧ c.taken = ms.map ClientMessage.taken

/-- The reads make up the messages, and none is empty. -/
structure Cuts (arrivals : List Arrival) (ms : List ClientMessage) : Prop where
  nonempty : ∀ a ∈ arrivals, a.newdata ≠ []
  flatten : (arrivals.map (·.newdata)).flatten =
    (ms.map ClientMessage.bytes).flatten

/-! ## Where that holds -/

/-- The session is ready for another message after this one, which was
complete with the read. -/
def Resets (a : Arrival) : ClientMessage → Prop
  | .startup _ | .query _ => True
  | .password _ => a.login.ok = true
  | .sslRequest | .unknown .. => False

/-- Each message ends where a read ends, and all but the last leave the session
ready for another. The bytes have been read of the first message. -/
inductive InStep : Bytes → List ClientMessage → List Arrival → Prop
  | nil : InStep [] [] []
  | inside {buf : Bytes} {m : ClientMessage} {ms : List ClientMessage}
      {a : Arrival} {as : List Arrival}
      (hlt : (buf ++ a.newdata).length < m.bytes.length)
      (h : InStep (buf ++ a.newdata) (m :: ms) as) :
      InStep buf (m :: ms) (a :: as)
  | ends {buf : Bytes} {m : ClientMessage} {ms : List ClientMessage}
      {a : Arrival} {as : List Arrival} (heq : buf ++ a.newdata = m.bytes)
      (hresets : ms = [] ∨ Resets a m) (h : InStep [] ms as) :
      InStep buf (m :: ms) (a :: as)

end Infinisql.Spec
