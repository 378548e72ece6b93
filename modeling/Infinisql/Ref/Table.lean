import Mathlib.Data.Finset.Basic
import Mathlib.Logic.Function.Basic
import Infinisql.Ref.Defs

/-!
# The row store of a table

`class Table` as an engine partition holds it, less the schema half: the row
maps, the lock queue and the forwarder map, and the functions of `Table.cc`
that read or write them.

Rows are reached through pointers, and the pointers matter. An inserted row
is one object that both `rows` and the shadow table point to, an updated row
is two objects, and the commit branch tells them apart by comparing the
pointers. So the model has a heap: `rows` and `shadowRows` map rowids to
addresses, `heap` maps addresses to rowdata, and a reference such as
`currentRowRef` is an address whose object is rewritten in place. `delete`
does not recycle an address; it is appended to `deletes`, so that what was
deleted, and how often, can be read off the state.

A function that would dereference null has no result. That covers
`rows[rowid]` on an absent rowid, where `operator[]` hands back a null
pointer, and a read-locked row without a set of holders.
-/

namespace Infinisql.Ref

/-- The identity of a `rowdata_s` object. -/
abbrev Addr := Nat

/-- `rowdata_s`. The defaults are what `new rowdata_s()` value-initialises;
`readlockHolders` is `none` for a null pointer. -/
structure Rowdata where
  writelockHolder : Int := 0
  previoussubtransactionid : Int := 0
  flags : Flags := 0#8
  readlockHolders : Option (Finset Int) := none
  row : Bytes := []
  deriving DecidableEq

structure ForwarderEntry where
  rowid : Int
  engineid : Int
  deriving DecidableEq, Repr

structure LockQueueRowEntry where
  pendingcmdid : Int
  tacmdentrypoint : Int
  subtransactionid : Int
  locktype : Locktype
  deriving DecidableEq, Repr

/-- `returnRow_s`. `selectrows` never assigns `previoussubtransactionid`, so
the stack garbage the source returns there is the default here. -/
structure ReturnRow where
  rowid : Int
  previoussubtransactionid : Int := 0
  row : Bytes
  locktype : Locktype
  deriving DecidableEq, Repr

/-- The row half of `class Table`. `shadowRows` is `shadowTable->rows`. -/
structure Table where
  id : Int
  nextrowid : Int
  heap : Addr → Rowdata
  nextAddr : Addr
  deletes : List Addr
  rows : Int → Option Addr
  shadowRows : Int → Option Addr
  lockQueue : Int → List LockQueueRowEntry
  forwarderMap : Int → Option ForwarderEntry

namespace Table

/-- `Table(idarg)`. The constructor leaves `nextrowid` uninitialised, so its
first value is a parameter. -/
def new (idarg nextrowid : Int) : Table where
  id := idarg
  nextrowid := nextrowid
  heap := fun _ => {}
  nextAddr := 0
  deletes := []
  rows := fun _ => none
  shadowRows := fun _ => none
  lockQueue := fun _ => []
  forwarderMap := fun _ => none

/-! ## The heap -/

/-- Assign through a reference to the object at `a`. -/
def setAt (t : Table) (a : Addr) (d : Rowdata) : Table :=
  { t with heap := Function.update t.heap a d }

/-- `new rowdata_s()` filled in, at an address nothing else has. -/
def alloc (t : Table) (d : Rowdata) : Table :=
  { t.setAt t.nextAddr d with nextAddr := t.nextAddr + 1 }

/-- `delete` on the object at `a`. -/
def delete (t : Table) (a : Addr) : Table :=
  { t with deletes := t.deletes ++ [a] }

def setRow (t : Table) (rowid : Int) (p : Option Addr) : Table :=
  { t with rows := Function.update t.rows rowid p }

def setShadow (t : Table) (rowid : Int) (p : Option Addr) : Table :=
  { t with shadowRows := Function.update t.shadowRows rowid p }

def setForwarder (t : Table) (rowid : Int) (f : Option ForwarderEntry) :
    Table :=
  { t with forwarderMap := Function.update t.forwarderMap rowid f }

/-! What each of these updates reads back, field by field. -/

@[simp] theorem setAt_fields (t : Table) (a : Addr) (d : Rowdata) :
    (t.setAt a d).heap = Function.update t.heap a d ∧
    (t.setAt a d).nextAddr = t.nextAddr ∧
    (t.setAt a d).deletes = t.deletes ∧ (t.setAt a d).rows = t.rows ∧
    (t.setAt a d).shadowRows = t.shadowRows ∧
    (t.setAt a d).forwarderMap = t.forwarderMap ∧
    (t.setAt a d).nextrowid = t.nextrowid := by
  simp [setAt]

@[simp] theorem alloc_fields (t : Table) (d : Rowdata) :
    (t.alloc d).heap = Function.update t.heap t.nextAddr d ∧
    (t.alloc d).nextAddr = t.nextAddr + 1 ∧
    (t.alloc d).deletes = t.deletes ∧ (t.alloc d).rows = t.rows ∧
    (t.alloc d).shadowRows = t.shadowRows ∧
    (t.alloc d).forwarderMap = t.forwarderMap ∧
    (t.alloc d).nextrowid = t.nextrowid := by
  simp [alloc]

@[simp] theorem delete_fields (t : Table) (a : Addr) :
    (t.delete a).heap = t.heap ∧ (t.delete a).nextAddr = t.nextAddr ∧
    (t.delete a).deletes = t.deletes ++ [a] ∧ (t.delete a).rows = t.rows ∧
    (t.delete a).shadowRows = t.shadowRows ∧
    (t.delete a).forwarderMap = t.forwarderMap ∧
    (t.delete a).nextrowid = t.nextrowid := by
  simp [delete]

@[simp] theorem setRow_fields (t : Table) (r : Int) (p : Option Addr) :
    (t.setRow r p).heap = t.heap ∧ (t.setRow r p).nextAddr = t.nextAddr ∧
    (t.setRow r p).deletes = t.deletes ∧
    (t.setRow r p).rows = Function.update t.rows r p ∧
    (t.setRow r p).shadowRows = t.shadowRows ∧
    (t.setRow r p).forwarderMap = t.forwarderMap ∧
    (t.setRow r p).nextrowid = t.nextrowid := by
  simp [setRow]

@[simp] theorem setShadow_fields (t : Table) (r : Int) (p : Option Addr) :
    (t.setShadow r p).heap = t.heap ∧
    (t.setShadow r p).nextAddr = t.nextAddr ∧
    (t.setShadow r p).deletes = t.deletes ∧
    (t.setShadow r p).rows = t.rows ∧
    (t.setShadow r p).shadowRows = Function.update t.shadowRows r p ∧
    (t.setShadow r p).forwarderMap = t.forwarderMap ∧
    (t.setShadow r p).nextrowid = t.nextrowid := by
  simp [setShadow]

@[simp] theorem setForwarder_fields (t : Table) (r : Int)
    (f : Option ForwarderEntry) :
    (t.setForwarder r f).heap = t.heap ∧
    (t.setForwarder r f).nextAddr = t.nextAddr ∧
    (t.setForwarder r f).deletes = t.deletes ∧
    (t.setForwarder r f).rows = t.rows ∧
    (t.setForwarder r f).shadowRows = t.shadowRows ∧
    (t.setForwarder r f).forwarderMap =
      Function.update t.forwarderMap r f ∧
    (t.setForwarder r f).nextrowid = t.nextrowid := by
  simp [setForwarder]

/-! ## Staging -/

/-- `getnextrowid`: the counter is incremented before it is read. -/
def getnextrowid (t : Table) : Int × Table :=
  (t.nextrowid + 1, { t with nextrowid := t.nextrowid + 1 })

/-- `newrow`: one object, write-locked and flagged as an insert, in both
maps. -/
def newrow (t : Table) (newrowid subtransactionid : Int) (row : Bytes) :
    Table :=
  let nrow : Rowdata :=
    { flags := setinsertflag (setwritelock 0#8)
      writelockHolder := subtransactionid
      row := row }
  ((t.alloc nrow).setRow newrowid (some t.nextAddr)).setShadow newrowid
    (some t.nextAddr)

/-- Does the object say that `subtransactionid` holds the write lock? -/
def writeLockedBy (d : Rowdata) (subtransactionid : Int) : Bool :=
  getlocktype d.flags == .writeLock && d.writelockHolder == subtransactionid

/-- `updaterow`. A shadow object that was there before is dropped from the
map but not deleted. -/
def updaterow (t : Table) (rowid subtransactionid : Int) (row : Bytes) :
    Status × Table :=
  match t.rows rowid with
  | none => (.notOk, t)
  | some a =>
      if !writeLockedBy (t.heap a) subtransactionid then (.notOk, t)
      else
        (.ok, (t.alloc { row := row }).setShadow rowid (some t.nextAddr))

/-- `deleterow(rowid, subtransactionid)`. -/
def deleterow (t : Table) (rowid subtransactionid : Int) : Status × Table :=
  match t.rows rowid with
  | none => (.notOk, t)
  | some a =>
      let d := t.heap a
      if !writeLockedBy d subtransactionid then (.notOk, t)
      else (.ok, t.setAt a { d with flags := setdeleteflag d.flags })

/-- The overload of `deleterow` for a row with a replacement elsewhere. -/
def replacedeleterow (t : Table) (rowid subtransactionid forwardRowid
    forwardEngineid : Int) : Status × Table :=
  match t.deleterow rowid subtransactionid with
  | (.notOk, t') => (.notOk, t')
  | (.ok, t') =>
      match t'.rows rowid with
      | none => (.ok, t')
      | some a =>
          let d := t'.heap a
          (.ok, (t'.setAt a { d with flags := setreplacedeleteflag d.flags })
            |>.setForwarder rowid (some ⟨forwardRowid, forwardEngineid⟩))

/-! ## Reading and locking -/

/-- A queued request waits for the row, unless the row is an insert in
flight, which is reported as not found. -/
def assignToLockQueue (t : Table) (rowid : Int) (locktype : Locktype)
    (subtransactionid pendingcmdid tacmdentrypoint : Int) :
    Option (Locktype × Table) :=
  match t.rows rowid with
  | none => none
  | some a =>
      if getinsertflag (t.heap a).flags then some (.notFoundLock, t)
      else
        let entry : LockQueueRowEntry :=
          ⟨pendingcmdid, tacmdentrypoint, subtransactionid, locktype⟩
        some (locktype, { t with
          lockQueue := Function.update t.lockQueue rowid
            (t.lockQueue rowid ++ [entry]) })

/-- The queue branches of `selectrows`: queue the request and report the
lock as pending, or skip the rowid. -/
def queueRow (t : Table) (rowid : Int) (locktype : Locktype)
    (subtransactionid pendingcmdid tacmdentrypoint : Int) :
    Option (Option ReturnRow × Table) :=
  match t.assignToLockQueue rowid locktype subtransactionid pendingcmdid
      tacmdentrypoint with
  | none => none
  | some (.notFoundLock, t') => some (none, t')
  | some (_, t') =>
      some (some { rowid := rowid, row := [], locktype := .pendingLock }, t')

/-- The reply for a rowid that is not in `rows`. -/
def notFoundRow (rowid : Int) : ReturnRow :=
  { rowid := rowid, row := [], locktype := .notFoundLock }

/-- One iteration of the `NOLOCK` loop: a row the caller has locked itself
is skipped, any other is returned as it stands in `rows`. -/
def selectNolock (t : Table) (rowid subtransactionid : Int) :
    Option (Option ReturnRow × Table) :=
  match t.rows rowid with
  | none => some (some (notFoundRow rowid), t)
  | some a =>
      let d := t.heap a
      let hit : ReturnRow := { rowid := rowid, row := d.row, locktype := .noLock }
      match getlocktype d.flags with
      | .noLock => some (some hit, t)
      | .readLock =>
          match d.readlockHolders with
          | none => none
          | some holders =>
              if subtransactionid ∈ holders then some (none, t)
              else some (some hit, t)
      | .writeLock =>
          if d.writelockHolder = subtransactionid then some (none, t)
          else some (some hit, t)
      | _ => some (none, t)

/-- One iteration of the `READLOCK` loop. -/
def selectReadlock (t : Table) (rowid subtransactionid pendingcmdid
    tacmdentrypoint : Int) : Option (Option ReturnRow × Table) :=
  match t.rows rowid with
  | none => some (some (notFoundRow rowid), t)
  | some a =>
      let d := t.heap a
      let hit : ReturnRow :=
        { rowid := rowid, row := d.row, locktype := .readLock }
      match getlocktype d.flags with
      | .noLock =>
          some (some hit, t.setAt a { d with
            flags := setreadlock d.flags
            readlockHolders := some {subtransactionid} })
      | .readLock =>
          match d.readlockHolders with
          | none => none
          | some holders =>
              if subtransactionid ∈ holders then some (none, t)
              else
                some (some hit, t.setAt a { d with
                  readlockHolders := some (insert subtransactionid holders) })
      | .writeLock =>
          if d.writelockHolder = subtransactionid then some (none, t)
          else
            t.queueRow rowid .readLock subtransactionid pendingcmdid
              tacmdentrypoint
      | _ => some (none, t)

/-- One iteration of the `WRITELOCK` loop. A reader is queued behind itself:
the branch does not ask whose read lock it is. -/
def selectWritelock (t : Table) (rowid subtransactionid pendingcmdid
    tacmdentrypoint : Int) : Option (Option ReturnRow × Table) :=
  match t.rows rowid with
  | none => some (some (notFoundRow rowid), t)
  | some a =>
      let d := t.heap a
      let hit : ReturnRow :=
        { rowid := rowid, row := d.row, locktype := .writeLock }
      match getlocktype d.flags with
      | .noLock =>
          some (some hit, t.setAt a { d with
            flags := setwritelock d.flags
            writelockHolder := subtransactionid })
      | .readLock =>
          t.queueRow rowid .writeLock subtransactionid pendingcmdid
            tacmdentrypoint
      | .writeLock =>
          if d.writelockHolder = subtransactionid then some (some hit, t)
          else
            t.queueRow rowid .writeLock subtransactionid pendingcmdid
              tacmdentrypoint
      | _ => some (none, t)

/-- The loop body for a lock type; the lock types `selectrows` reports as an
anomaly do nothing. -/
def selectrow (t : Table) (locktype : Locktype) (rowid subtransactionid
    pendingcmdid tacmdentrypoint : Int) : Option (Option ReturnRow × Table) :=
  match locktype with
  | .noLock => t.selectNolock rowid subtransactionid
  | .readLock =>
      t.selectReadlock rowid subtransactionid pendingcmdid tacmdentrypoint
  | .writeLock =>
      t.selectWritelock rowid subtransactionid pendingcmdid tacmdentrypoint
  | _ => some (none, t)

/-- `selectrows`: the loop over the rowids, collecting what is pushed back
onto `returnRows`. -/
def selectrows (t : Table) (locktype : Locktype) (subtransactionid
    pendingcmdid tacmdentrypoint : Int) :
    List Int → Option (List ReturnRow × Table)
  | [] => some ([], t)
  | rowid :: rowids =>
      match t.selectrow locktype rowid subtransactionid pendingcmdid
          tacmdentrypoint with
      | none => none
      | some (hit, t') =>
          match t'.selectrows locktype subtransactionid pendingcmdid
              tacmdentrypoint rowids with
          | none => none
          | some (hits, t'') => some (hit.toList ++ hits, t'')

/-! ## Ending -/

/-- The read lock branches of `COMMITCMD` and `UNLOCKCMD`: drop one holder,
and the lock with the last one. -/
def dropReader (t : Table) (a : Addr) (subtransactionid : Int) :
    Option Table :=
  let d := t.heap a
  match d.readlockHolders with
  | none => none
  | some holders =>
      if subtransactionid ∉ holders then some t
      else
        let holders' := holders.erase subtransactionid
        if holders' = ∅ then
          some (t.setAt a { d with
            flags := clearlockedflag d.flags, readlockHolders := none })
        else some (t.setAt a { d with readlockHolders := some holders' })

/-- The tail of `COMMITCMD` for a write-locked row that stays: install the
shadow object if there is one. When it is the row's own object the row was
inserted, otherwise the old object is deleted and the map repointed. -/
def installShadow (t : Table) (rowid : Int) (a : Addr) : Table :=
  let d := t.heap a
  match t.shadowRows rowid with
  | none => t.setAt a { d with flags := 0#8, writelockHolder := 0 }
  | some b =>
      let t := t.setAt b { t.heap b with
        previoussubtransactionid := d.writelockHolder
        flags := 0#8
        writelockHolder := 0
        readlockHolders := none }
      if a = b then t.setShadow rowid none
      else ((t.delete a).setRow rowid (some b)).setShadow rowid none

/-- `delete shadowTable->rows[rowid]` and the erase, if there is an entry. -/
def dropShadow (t : Table) (rowid : Int) : Table :=
  match t.shadowRows rowid with
  | none => t
  | some b => (t.delete b).setShadow rowid none

@[simp] theorem dropShadow_fields (t : Table) (r : Int) :
    (t.dropShadow r).heap = t.heap ∧
    (t.dropShadow r).nextAddr = t.nextAddr ∧
    (t.dropShadow r).deletes = t.deletes ++ (t.shadowRows r).toList ∧
    (t.dropShadow r).rows = t.rows ∧
    (t.dropShadow r).shadowRows = Function.update t.shadowRows r none ∧
    (t.dropShadow r).forwarderMap = t.forwarderMap ∧
    (t.dropShadow r).nextrowid = t.nextrowid := by
  unfold dropShadow
  cases h : t.shadowRows r with
  | none => simp [← h, Function.update_eq_self]
  | some b => simp

def commitRow (t : Table) (rowid subtransactionid : Int) : Option Table :=
  match t.rows rowid with
  | none => none
  | some a =>
      let d := t.heap a
      if getlocktype d.flags = .readLock then t.dropReader a subtransactionid
      else if !writeLockedBy d subtransactionid then some t
      else if getdeleteflag d.flags then
        let t := if getreplacedeleteflag d.flags then t.setForwarder rowid none
          else t
        some (((t.delete a).setRow rowid none).dropShadow rowid)
      else
        let t := t.setAt a { d with readlockHolders := none }
        some (t.installShadow rowid a)

/-- The holders a rollback leaves: the caller is taken out of a read lock. -/
def rollbackHolders (d : Rowdata) (subtransactionid : Int) :
    Option (Option (Finset Int)) :=
  if getlocktype d.flags = .readLock then
    match d.readlockHolders with
    | none => none
    | some holders =>
        let holders' := holders.erase subtransactionid
        some (if holders' = ∅ then none else some holders')
  else some d.readlockHolders

/-- The tail of `ROLLBACKCMD` for a row that stays: whatever lock the caller
had on it goes, and the shadow with it. -/
def rollbackStaying (t : Table) (rowid : Int) (a : Addr)
    (subtransactionid : Int) : Option Table :=
  let d := t.heap a
  let t := if getdeleteflag d.flags then
      (if getreplacedeleteflag d.flags then t.setForwarder rowid none
        else t).dropShadow rowid
    else t
  match rollbackHolders d subtransactionid with
  | none => none
  | some holders =>
      some ((t.setAt a { d with
        writelockHolder := 0
        flags := if holders.isSome then setreadlock 0#8 else 0#8
        readlockHolders := holders }).dropShadow rowid)

def rollbackRow (t : Table) (rowid subtransactionid : Int) : Option Table :=
  match t.rows rowid with
  | none => some t
  | some a =>
      let d := t.heap a
      if d.writelockHolder ≠ subtransactionid ∧ getlocktype d.flags = .writeLock
      then some t
      else if getinsertflag d.flags then
        some (((t.delete a).setRow rowid none).setShadow rowid none)
      else t.rollbackStaying rowid a subtransactionid

def unlockRow (t : Table) (rowid subtransactionid : Int) : Option Table :=
  match t.rows rowid with
  | none => none
  | some a =>
      if getlocktype (t.heap a).flags ≠ .readLock then some t
      else t.dropReader a subtransactionid

/-- `REVERTCMD`: what rollback does to the staged version. The whole flag
byte goes, the holder stays, and nothing is deleted. -/
def revertRow (t : Table) (rowid subtransactionid : Int) : Table :=
  match t.rows rowid with
  | none => t
  | some a =>
      let d := t.heap a
      if !writeLockedBy d subtransactionid then t
      else
        let t := if getinsertflag d.flags then t.setRow rowid none
          else t.setAt a { d with flags := 0#8 }
        (t.setForwarder rowid none).setShadow rowid none

def commitRollbackUnlock (t : Table) (rowid subtransactionid : Int)
    (cmd : Enginecmd) : Option Table :=
  match cmd with
  | .commitCmd => t.commitRow rowid subtransactionid
  | .rollbackCmd => t.rollbackRow rowid subtransactionid
  | .unlockCmd => t.unlockRow rowid subtransactionid
  | .revertCmd => some (t.revertRow rowid subtransactionid)
  | _ => some t

/-! ## One call -/

end Table

/-- A call on the row store. -/
inductive TableOp
  | newrow (rowid subtransactionid : Int) (row : Bytes)
  | selectrows (rowids : List Int) (locktype : Locktype)
      (subtransactionid pendingcmdid tacmdentrypoint : Int)
  | updaterow (rowid subtransactionid : Int) (row : Bytes)
  | deleterow (rowid subtransactionid : Int)
  | replacedeleterow (rowid subtransactionid forwardRowid
      forwardEngineid : Int)
  | commitRollbackUnlock (rowid subtransactionid : Int) (cmd : Enginecmd)
  deriving DecidableEq, Repr

/-- What a call hands back: a status, or the rows of a `selectrows`. -/
inductive TableReply
  | done
  | status (st : Status)
  | rows (returnRows : List ReturnRow)
  deriving DecidableEq, Repr

namespace TableOp

/-- The subtransaction that makes the call. -/
def sub : TableOp → Int
  | newrow _ s _ | selectrows _ _ s _ _ | updaterow _ s _ | deleterow _ s
  | replacedeleterow _ s _ _ | commitRollbackUnlock _ s _ => s

/-- The rowids the call names. -/
def rowids : TableOp → List Int
  | selectrows rs _ _ _ _ => rs
  | newrow r _ _ | updaterow r _ _ | deleterow r _ | replacedeleterow r _ _ _
  | commitRollbackUnlock r _ _ => [r]

end TableOp

namespace Table

def exec (t : Table) : TableOp → Option (TableReply × Table)
  | .newrow r s row => some (.done, t.newrow r s row)
  | .selectrows rs lt s pc tc =>
      (t.selectrows lt s pc tc rs).map fun (hits, t') => (.rows hits, t')
  | .updaterow r s row =>
      let (st, t') := t.updaterow r s row
      some (.status st, t')
  | .deleterow r s =>
      let (st, t') := t.deleterow r s
      some (.status st, t')
  | .replacedeleterow r s fr fe =>
      let (st, t') := t.replacedeleterow r s fr fe
      some (.status st, t')
  | .commitRollbackUnlock r s cmd =>
      (t.commitRollbackUnlock r s cmd).map fun t' => (.done, t')

def step (t : Table) (op : TableOp) : Option Table :=
  (t.exec op).map Prod.snd

end Table

end Infinisql.Ref
