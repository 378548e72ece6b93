import Infinisql.Ref.PgSession

/-!
# Transactions of a session, as a client sees them

A client sees a session in one of three states, and `ReadyForQuery` tells it
which: idle, in a transaction block, or in a block that has failed. What a
query does, and which state it leaves, depends on nothing else: outside a
block a statement has a transaction to itself, in a block all statements share
the block's, the first that fails rolls it back, and then nothing is done
until the block is ended.
-/

namespace Infinisql.Spec.Session

open Infinisql.Ref.Session

inductive TxState
  | idle
  | inBlock (tx : Nat)
  | aborted
  deriving DecidableEq, Repr

/-- The status byte of `ReadyForQuery`. -/
def TxState.status : TxState → Char
  | .idle => 'I'
  | .inBlock _ => 'T'
  | .aborted => 'E'

/-- A query, and what its statement comes back with. -/
structure Ask where
  query : Option Statement
  outcome : Option (Int × Nat)

/-- A query with what was done for it, and the number the next new
transaction was to get. -/
structure Exchange where
  query : Option Statement
  outcome : Option (Int × Nat)
  tx : Nat
  effects : List Effect
  replies : List Reply

def isOk (outcome : Option (Int × Nat)) : Bool :=
  outcome.any fun o => o.1 = 0

/-! ## What a query is to do -/

/-- A statement outside a block. -/
def serveIdle (stmt : Statement) (outcome : Option (Int × Nat)) (tx : Nat) :
    List Effect × TxState :=
  match stmt.type with
  | .begin => ([.began tx], .inBlock tx)
  | .select | .insert | .update | .delete =>
      if !stmt.resolves then ([], .idle)
      else if isOk outcome then
        ([.began tx, .executed tx stmt.type, .committed tx], .idle)
      else ([.began tx, .executed tx stmt.type, .rolledBack tx], .idle)
  | .storedprocedure => (if stmt.loaded then [.called] else [], .idle)
  | _ => ([], .idle)

/-- A statement in the block of a transaction. -/
def serveInBlock (tx : Nat) (stmt : Statement)
    (outcome : Option (Int × Nat)) : List Effect × TxState :=
  let run : List Effect × TxState :=
    if isOk outcome then ([.executed tx stmt.type], .inBlock tx)
    else ([.executed tx stmt.type, .rolledBack tx], .aborted)
  match stmt.type with
  | .begin => ([], .inBlock tx)
  | .commit => ([.committed tx], .idle)
  | .rollback => ([.rolledBack tx], .idle)
  | .select | .insert | .update | .delete =>
      if stmt.resolves then run else ([.rolledBack tx], .aborted)
  | .storedprocedure =>
      if stmt.loaded then run else ([.rolledBack tx], .aborted)
  | _ => ([.rolledBack tx], .aborted)

/-- A statement in a block that has failed. -/
def serveAborted (stmt : Statement) : List Effect × TxState :=
  if stmt.type = .commit ∨ stmt.type = .rollback then ([], .idle)
  else ([], .aborted)

def serve (t : TxState) (query : Option Statement)
    (outcome : Option (Int × Nat)) (tx : Nat) : List Effect × TxState :=
  match t, query with
  | .idle, none => ([], .idle)
  | .idle, some stmt => serveIdle stmt outcome tx
  | .inBlock tx, none => ([.rolledBack tx], .aborted)
  | .inBlock tx, some stmt => serveInBlock tx stmt outcome
  | .aborted, none => ([], .aborted)
  | .aborted, some stmt => serveAborted stmt

def isReadyForQuery : Reply → Bool
  | .readyForQuery _ => true
  | _ => false

/-- The state after an exchange, if it was what it is to be: with these
effects, and one `ReadyForQuery` that tells the state. -/
def Exchange.next (t : TxState) (x : Exchange) : Option TxState :=
  let (effects, t') := serve t x.query x.outcome x.tx
  if x.effects = effects ∧
      x.replies.filter isReadyForQuery = [.readyForQuery t'.status] then
    some t'
  else none

/-! ## A session and its exchanges -/

structure World where
  pg : Pg := {}
  history : List Exchange := []

def exchange (pg : Pg) (a : Ask) (pg' : Pg) : Exchange where
  query := a.query
  outcome := a.outcome
  tx := pg.nexttransactionid
  effects := pg'.effects.drop pg.effects.length
  replies := pg'.sent.drop pg.sent.length

def ask (w : World) (a : Ask) : Option World := do
  let pg ← w.pg.answer a.query a.outcome
  some { pg, history := w.history ++ [exchange w.pg a pg] }

/-- The session is in the state, waits for nothing, and has no transaction
but that of the block. -/
structure Matches (pg : Pg) (t : TxState) : Prop where
  pending : pg.pending = []
  autocommit : pg.session_isautocommit = true
  transaction : match t with
    | .idle => pg.state = .established ∧ pg.transactionPtr = none ∧
        pg.isintransactionblock = false ∧ pg.transactions = []
    | .inBlock tx => pg.state = .established ∧ pg.transactionPtr = some tx ∧
        pg.isintransactionblock = true ∧ pg.transactions = [tx]
    | .aborted => pg.state = .aborted ∧ pg.transactionPtr = none ∧
        pg.isintransactionblock = true ∧ pg.transactions = []

/-- All exchanges so far were what they are to be, and the session is in the
state they have led to. -/
def AsSpecified (w : World) : Prop :=
  ∃ t, w.history.foldlM Exchange.next .idle = some t ∧ Matches w.pg t

/-- In a block that has failed, any query is served. Otherwise text that does
not parse, and a procedure that is there, are not to come in a block, nor
statements of a type that nothing executes at all. And a statement comes back,
which an `INSERT` does that has a value for each field. -/
def Servable (w : World) (a : Ask) : Prop :=
  w.pg.state = .aborted ∨
    match a.query with
    | none => w.pg.transactionPtr = none
    | some stmt =>
        match stmt.type with
        | .select | .update | .delete =>
            stmt.resolves = false ∨ a.outcome ≠ none
        | .insert => stmt.resolves = false ∨
            (stmt.complete = true ∧ a.outcome ≠ none)
        | .begin | .rollback => True
        | .commit => w.pg.transactionPtr = none ∨ a.outcome ≠ none
        | .storedprocedure => stmt.loaded = false ∨
            (w.pg.transactionPtr = none ∧ a.outcome ≠ none)
        | .none | .set | .create | .drop | .alter => False

/-! ## Queries in turn -/

/-- A session, and the queries it has been sent. -/
structure Line where
  pg : Pg := {}
  arrived : List (Option Statement) := []

def arrive (l : Line) (e : Event) : Option Line := do
  let pg ← step l.pg e
  match e with
  | .query query => some { pg, arrived := l.arrived ++ [query] }
  | .returns .. => some { l with pg }

/-- The session when it has been asked these, one at a time. -/
def alone (asks : List Ask) : Option Pg :=
  asks.foldlM (fun pg a => pg.answer a.query a.outcome) {}

/-- The query has been started in the one session and has led to the other,
and its statement or its commit has not come back. -/
def Underway (pg₁ : Pg) (query : Option Statement) (pg : Pg) : Prop :=
  pg.pending ≠ [] ∧
    (pg₁.cont query = some pg ∨
      ∃ o, (pg₁.cont query).bind (Pg.settle (some o)) = some pg)

/-- All queries that have arrived were executed one after the other, in the
order in which they have arrived, and the last may be underway. -/
def InTurn (l : Line) : Prop :=
  ∃ done pg₁, alone done = some pg₁ ∧
    ((l.arrived = done.map (·.query) ∧ l.pg = pg₁) ∨
      ∃ query, l.arrived = done.map (·.query) ++ [query] ∧
        Underway pg₁ query l.pg)

/-- A query arrives when the session waits for nothing. -/
def WaitsItsTurn (l : Line) : Event → Prop
  | .query _ => l.pg.pending = []
  | .returns .. => True

end Infinisql.Spec.Session
