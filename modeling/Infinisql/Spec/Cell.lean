import Infinisql.Ref.Table

/-!
# One row, seen as a value

What the row store is for can be said row by row: a row has a current
object, perhaps a staged one, perhaps a forwarding address. This file says
it that way. A `Cell` is everything the store keeps about one rowid, with
the heap gone: the staged object is absent, the very object that `rows`
holds (an insert), or a copy of its own (an update). `cellStep` is what a
call does to the cell of a row it names, and a call does nothing to the cell
of a row it does not name; `Proofs/TableCells.lean` proves that of the
pointers.

The three shapes a row's lock may have are stated here as well. They are
predicates on the object, because the lock of the source is three fields
that only together mean something.
-/

namespace Infinisql.Spec

open Infinisql.Ref

/-! ## Lock shapes -/

/-- The three meanings of a row's lock fields. -/
inductive LockKind
  | free
  | shared
  | exclusive
  deriving DecidableEq, Repr

/-- The fields of `d` spell a lock of this kind, and nothing else. -/
def InShape : LockKind → Rowdata → Prop
  | .free, d => getlocktype d.flags = .noLock ∧ d.writelockHolder = 0 ∧
      d.readlockHolders = none
  | .shared, d => getlocktype d.flags = .readLock ∧
      (∃ holders, d.readlockHolders = some holders ∧ holders.Nonempty) ∧
      d.writelockHolder = 0
  | .exclusive, d => getlocktype d.flags = .writeLock ∧
      d.writelockHolder ≠ 0 ∧ d.readlockHolders = none

def Shaped (d : Rowdata) : Prop := ∃! k, InShape k d

/-- `s` holds a read lock on the row. -/
def HoldsRead (d : Rowdata) (s : Int) : Prop :=
  getlocktype d.flags = .readLock ∧
    ∃ holders, d.readlockHolders = some holders ∧ s ∈ holders

/-- `s` holds the write lock on the row. -/
def HoldsWrite (d : Rowdata) (s : Int) : Prop :=
  getlocktype d.flags = .writeLock ∧ d.writelockHolder = s

def Holds (d : Rowdata) (s : Int) : Prop := HoldsRead d s ∨ HoldsWrite d s

/-! ## Cells -/

/-- The staged object of a row. -/
inductive Shadow
  | absent
  | same
  | copy (d : Rowdata)

structure Cell where
  row : Option Rowdata
  shadow : Shadow
  forwarder : Option ForwarderEntry

/-- The shadow of a row: `same` when both maps point to one object. -/
def shadowOf (t : Table) (r : Int) : Shadow :=
  match t.shadowRows r with
  | none => .absent
  | some b => if t.rows r = some b then .same else .copy (t.heap b)

/-- What the store keeps about rowid `r`. -/
def cell (t : Table) (r : Int) : Cell where
  row := (t.rows r).map t.heap
  shadow := shadowOf t r
  forwarder := t.forwarderMap r

/-! ## Calls on a cell -/

inductive CellOp
  | newrow (s : Int) (row : Bytes)
  | select (locktype : Locktype) (s : Int)
  | updaterow (s : Int) (row : Bytes)
  | deleterow (s : Int)
  | replacedeleterow (s : Int) (f : ForwarderEntry)
  | finish (s : Int) (cmd : Enginecmd)

namespace Cell

def setFlags (c : Cell) (d : Rowdata) (flags : Flags) : Cell :=
  { c with row := some { d with flags := flags } }

def newrow (c : Cell) (s : Int) (row : Bytes) : Cell where
  row := some { flags := setinsertflag (setwritelock 0#8)
                writelockHolder := s
                row := row }
  shadow := .same
  forwarder := c.forwarder

/-- A new reader, a new writer, or nothing: what is queued or skipped leaves
the row alone. -/
def select (c : Cell) (locktype : Locktype) (s : Int) : Option Cell :=
  match c.row with
  | none => some c
  | some d =>
      match locktype, getlocktype d.flags with
      | .noLock, .readLock => if d.readlockHolders = none then none else some c
      | .readLock, .noLock =>
          some { c with row := some { d with
            flags := setreadlock d.flags, readlockHolders := some {s} } }
      | .readLock, .readLock =>
          match d.readlockHolders with
          | none => none
          | some holders =>
              if s ∈ holders then some c
              else some { c with row := some { d with
                readlockHolders := some (insert s holders) } }
      | .writeLock, .noLock =>
          some { c with row := some { d with
            flags := setwritelock d.flags, writelockHolder := s } }
      | _, _ => some c

/-- Staging succeeds for the holder of the write lock and for nobody else. -/
def ifHolder (c : Cell) (s : Int) (f : Rowdata → Cell) : Cell :=
  match c.row with
  | none => c
  | some d => if Table.writeLockedBy d s then f d else c

def updaterow (c : Cell) (s : Int) (row : Bytes) : Cell :=
  c.ifHolder s fun _ => { c with shadow := .copy { row := row } }

def deleterow (c : Cell) (s : Int) : Cell :=
  c.ifHolder s fun d => c.setFlags d (setdeleteflag d.flags)

def replacedeleterow (c : Cell) (s : Int) (f : ForwarderEntry) : Cell :=
  c.ifHolder s fun d =>
    { c.setFlags d (setreplacedeleteflag (setdeleteflag d.flags)) with
      forwarder := some f }

/-- One reader fewer. -/
def dropReader (c : Cell) (d : Rowdata) (s : Int) : Option Cell :=
  match d.readlockHolders with
  | none => none
  | some holders =>
      if s ∉ holders then some c
      else if holders.erase s = ∅ then
        some { c with row := some { d with
          flags := clearlockedflag d.flags, readlockHolders := none } }
      else some { c with row := some { d with
          readlockHolders := some (holders.erase s) } }

/-- The object a committed row is left with: `d` is the one in `rows`. -/
def installed (c : Cell) (d : Rowdata) : Rowdata :=
  match c.shadow with
  | .absent =>
      { d with flags := 0#8, writelockHolder := 0, readlockHolders := none }
  | .same =>
      { d with previoussubtransactionid := d.writelockHolder, flags := 0#8
               writelockHolder := 0, readlockHolders := none }
  | .copy sh =>
      { sh with previoussubtransactionid := d.writelockHolder, flags := 0#8
                writelockHolder := 0, readlockHolders := none }

def commit (c : Cell) (s : Int) : Option Cell :=
  match c.row with
  | none => none
  | some d =>
      if getlocktype d.flags = .readLock then c.dropReader d s
      else if !Table.writeLockedBy d s then some c
      else if getdeleteflag d.flags then
        some ⟨none, .absent,
          if getreplacedeleteflag d.flags then none else c.forwarder⟩
      else some ⟨some (c.installed d), .absent, c.forwarder⟩

def rollback (c : Cell) (s : Int) : Option Cell :=
  match c.row with
  | none => some c
  | some d =>
      if d.writelockHolder ≠ s ∧ getlocktype d.flags = .writeLock then some c
      else if getinsertflag d.flags then some ⟨none, .absent, c.forwarder⟩
      else
        (Table.rollbackHolders d s).map fun holders =>
          ⟨some { d with
              writelockHolder := 0
              flags := if holders.isSome then setreadlock 0#8 else 0#8
              readlockHolders := holders },
            .absent,
            if getdeleteflag d.flags && getreplacedeleteflag d.flags then none
            else c.forwarder⟩

def unlock (c : Cell) (s : Int) : Option Cell :=
  match c.row with
  | none => none
  | some d =>
      if getlocktype d.flags ≠ .readLock then some c else c.dropReader d s

def revert (c : Cell) (s : Int) : Cell :=
  c.ifHolder s fun d =>
    ⟨if getinsertflag d.flags then none else some { d with flags := 0#8 },
      .absent, none⟩

def finish (c : Cell) (s : Int) (cmd : Enginecmd) : Option Cell :=
  match cmd with
  | .commitCmd => c.commit s
  | .rollbackCmd => c.rollback s
  | .unlockCmd => c.unlock s
  | .revertCmd => some (c.revert s)
  | _ => some c

end Cell

def cellStep (c : Cell) : CellOp → Option Cell
  | .newrow s row => some (c.newrow s row)
  | .select lt s => c.select lt s
  | .updaterow s row => some (c.updaterow s row)
  | .deleterow s => some (c.deleterow s)
  | .replacedeleterow s f => some (c.replacedeleterow s f)
  | .finish s cmd => c.finish s cmd

/-- The calls on the cell of `r` that a call on the store amounts to; a
`selectrows` may name a rowid more than once. -/
def cellOps (r : Int) : TableOp → List CellOp
  | .newrow r' s row => if r' = r then [.newrow s row] else []
  | .selectrows rs lt s _ _ =>
      (rs.filter (· = r)).map fun _ => .select lt s
  | .updaterow r' s row => if r' = r then [.updaterow s row] else []
  | .deleterow r' s => if r' = r then [.deleterow s] else []
  | .replacedeleterow r' s fr fe =>
      if r' = r then [.replacedeleterow s ⟨fr, fe⟩] else []
  | .commitRollbackUnlock r' s cmd => if r' = r then [.finish s cmd] else []

end Infinisql.Spec
