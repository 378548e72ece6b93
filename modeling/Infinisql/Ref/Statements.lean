import Infinisql.Ref.Update

/-!
# INSERT and UPDATE on the tables of all engines

Every engine has a row store for every table. A transaction finds rows, in
the stores and among those it has staged itself, and its statements make new
row strings of what it found. The strings go to the engines in messages, which
arrive in any order and at any time after they were sent. What else happens to
the stores, the deletes and what ends a transaction, happens here by itself:
its calls are made at any time with any arguments.

`found` is what a transaction has found so far. The search results of a
statement are some of it: which ones is up to the WHERE clause, and where a
reply aborts an UPDATE the remaining rows are not visited. The indexes are
left out. A string that no machine could hold is not made.
-/

namespace Infinisql.Ref

/-- `stagedRow2ReturnRow`. A row that is to be deleted comes out empty. -/
def stagedRow2ReturnRow (stagedRow : StagedRow) : ReturnRow :=
  match stagedRow.cmd with
  | .nocommand =>
      { rowid := stagedRow.originalrowid
        previoussubtransactionid := stagedRow.previoussubtransactionid
        row := stagedRow.originalRow, locktype := stagedRow.locktype }
  | .insert | .update =>
      { rowid := stagedRow.newrowid
        previoussubtransactionid := stagedRow.previoussubtransactionid
        row := stagedRow.newRow, locktype := stagedRow.locktype }
  | .delete => { rowid := 0, row := [], locktype := .noLock }

/-- A message with the transaction that sent it. Of a row that is replaced,
the row whose staging waits for the answer. -/
structure Sent where
  transactionid : Int
  engineid : Int
  cmd : Statement.SubtransactionCmd
  originalrowuur : Option UuRecord := none
  deriving DecidableEq

/-- The row stores by engine and table, what each transaction has found and
staged, and the messages on their way. -/
structure Tables where
  store : Int → Int → Table
  found : Int → List (UuRecord × ReturnRow)
  stagedRows : Int → UuRecord → Option StagedRow
  sent : List Sent

inductive TablesOp
  | selectrows (transactionid engineid tableid : Int) (rowids : List Int)
      (locktype : Locktype) (pendingcmdid tacmdentrypoint : Int)
  | findStaged (transactionid : Int) (uur : UuRecord)
  | continueSelect (transactionid : Int) (rows : List (UuRecord × ReturnRow))
  | continueDelete (transactionid : Int) (rows : List (UuRecord × ReturnRow))
  | insert (transactionid tableid : Int) (operands : List Bytes)
  | update (transactionid tableid : Int) (parameters : List Bytes)
      (assignments : Statement.Assignments)
      (rows : List (UuRecord × ReturnRow))
  | deliver (n : Nat)
  | call (engineid tableid : Int) (op : TableOp)

namespace Tables

/-- No rows, no transactions. -/
def new : Tables where
  store _ tableid := .new tableid 0
  found _ := []
  stagedRows _ _ := none
  sent := []

def setStore (s : Tables) (engineid tableid : Int) (t : Table) : Tables :=
  let stores := Function.update (s.store engineid) tableid t
  { s with store := Function.update s.store engineid stores }

def find (s : Tables) (transactionid : Int)
    (rows : List (UuRecord × ReturnRow)) : Tables :=
  let found := s.found transactionid ++ rows
  { s with found := Function.update s.found transactionid found }

def stage (s : Tables) (transactionid : Int) (uur : UuRecord)
    (stagedRow : StagedRow) : Tables :=
  let rows := Function.update (s.stagedRows transactionid) uur (some stagedRow)
  { s with stagedRows := Function.update s.stagedRows transactionid rows }

def send (s : Tables) (sent : List Sent) : Tables :=
  { s with sent := s.sent ++ sent }

/-- The rows that a `selectrows` answers with, as `continueSqlPredicate` takes
them: none that are pending or were not found. -/
def results (engineid tableid : Int) (returnRows : List ReturnRow) :
    List (UuRecord × ReturnRow) :=
  (returnRows.filter fun r =>
    r.locktype = .noLock ∨ r.locktype = .readLock ∨ r.locktype = .writeLock).map
    fun r => (⟨r.rowid, tableid, engineid⟩, r)

/-- `continueSelect`, for one row. -/
def stageSelected (s : Tables) (transactionid : Int)
    (p : UuRecord × ReturnRow) : Tables :=
  match s.stagedRows transactionid p.1 with
  | some _ => s
  | none => s.stage transactionid p.1
      { cmd := .nocommand, locktype := p.2.locktype, originalRow := p.2.row
        originalrowid := p.2.rowid }

/-- `continueDelete`, for one row. -/
def stageDeleted (s : Tables) (transactionid : Int)
    (p : UuRecord × ReturnRow) : Tables :=
  s.stage transactionid p.1
    { (s.stagedRows transactionid p.1).getD {} with
      cmd := .delete, originalRow := p.2.row }

/-- What `continueUpdate` leaves for one row. -/
def stageUpdated (s : Tables) (transactionid : Int)
    (p : UuRecord × Statement.Updated) : Tables :=
  (s.stage transactionid p.1 p.2.stagedRow).send <|
    p.2.sent.map fun (engineid, cmd) =>
      { transactionid := transactionid, engineid := engineid, cmd := cmd
        originalrowuur := some p.1 }

/-- The first reply: an insert is staged now, and a replaced row gets the
rowid of its new one. -/
def stageNewrow (s : Tables) (m : Sent) (tableid rowid : Int) (row : Bytes) :
    Tables :=
  match m.originalrowuur with
  | none => s.stage m.transactionid ⟨rowid, tableid, m.engineid⟩
      { cmd := .insert, newRow := row, newrowid := rowid
        locktype := .writeLock }
  | some uur => s.stage m.transactionid uur
      { (s.stagedRows m.transactionid uur).getD {} with newrowid := rowid }

/-- A message arrives. -/
def receive (s : Tables) (subs : Int → Int → Int) (m : Sent) : Tables :=
  let sub := subs m.transactionid m.engineid
  match m.cmd with
  | .newrow tableid row =>
      let (rowid, t) := (s.store m.engineid tableid).getnextrowid
      (s.setStore m.engineid tableid (t.newrow rowid sub row)).stageNewrow m
        tableid rowid row
  | .updaterow tableid rowid row =>
      let (_, t) := (s.store m.engineid tableid).updaterow rowid sub row
      s.setStore m.engineid tableid t
  | .uniqueindex .. => s

def inMemory (row : Bytes) : Bool := row.length < 2 ^ 64

/-- One statement, or a part of one, with what it reports. -/
def exec (ld : LongDouble) (top : Topology) (schema : Int → List Field)
    (subs : Int → Int → Int) (s : Tables) :
    TablesOp → Option (Apistatus × Tables)
  | .selectrows x e tableid rowids locktype pendingcmdid tacmdentrypoint =>
      ((s.store e tableid).selectrows locktype (subs x e) pendingcmdid
        tacmdentrypoint rowids).map fun (returnRows, t) =>
          (.ok, (s.setStore e tableid t).find x (results e tableid returnRows))
  | .findStaged x uur =>
      (s.stagedRows x uur).map fun stagedRow =>
        (.ok, s.find x [(uur, stagedRow2ReturnRow stagedRow)])
  | .continueSelect x rows =>
      if rows ⊆ s.found x then
        some (.ok, rows.foldl (stageSelected · x ·) s)
      else none
  | .continueDelete x rows =>
      if rows ⊆ s.found x then
        some (.ok, rows.foldl (stageDeleted · x ·) s)
      else none
  | .insert x tableid operands =>
      match Statement.insertValues (schema tableid) operands with
      | none => none
      | some (.error status) => some (status, s)
      | some (.ok values) =>
          match Statement.makeNewrow top (schema tableid) values with
          | none => none
          | some new =>
              if inMemory new.newrow then
                some (.ok, s.send [{ transactionid := x
                                     engineid := new.newrowengineid
                                     cmd := .newrow tableid new.newrow }])
              else none
  | .update x tableid parameters assignments rows =>
      if rows ⊆ s.found x then
        match Statement.continueUpdate ld top tableid (schema tableid)
            parameters (fun uur => (s.stagedRows x uur).getD {}) assignments
            (fun _ => none) rows with
        | none => none
        | some staged =>
            if staged.all fun p => inMemory p.2.stagedRow.newRow then
              some (.ok, staged.foldl (stageUpdated · x ·) s)
            else none
      else none
  | .deliver n =>
      match s.sent[n]? with
      | none => none
      | some m =>
          some (.ok, { s with sent := s.sent.eraseIdx n }.receive subs m)
  | .call e tableid op =>
      match op with
      | .newrow .. | .updaterow .. | .selectrows .. => none
      | op => ((s.store e tableid).step op).map fun t =>
          (.ok, s.setStore e tableid t)

def step (ld : LongDouble) (top : Topology) (schema : Int → List Field)
    (subs : Int → Int → Int) (s : Tables) (op : TablesOp) : Option Tables :=
  (s.exec ld top schema subs op).map Prod.snd

end Tables

end Infinisql.Ref
