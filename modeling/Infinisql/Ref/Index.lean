import Mathlib.Data.Finset.Basic
import Mathlib.Logic.Function.Basic
import Infinisql.Ref.Value

/-!
# An index

`class Index`, as an engine partition holds it for one field of one table,
less the searches. An index has a pointer for each combination of key type
and map kind, and `makeindex` allocates the one that the index's type calls
for; every other pointer stays null. A function that is called on the wrong
kind of index goes through a null pointer, and then it has no result here.

The source writes each function once for each key type, as overloads. Here
an overload is a case of one definition on `Key`: the constructor is the C++
type of the argument. Inside, the source switches over `indexmaptype`, and
the cases name the pointer they go through.

The maps themselves are functions. A locking map has at most one entry for a
key. A multimap is the list of its pairs; their order means nothing here.
-/

namespace Infinisql.Ref

/-- `indextype_e`. -/
inductive Indextype
  | none
  | unique
  | nonunique
  | unordered
  | uniquenotnull
  | nonuniquenotnull
  | unorderednotnull
  deriving DecidableEq, Repr

/-- `indexmaptype_e`. -/
inductive Indexmaptype
  | noindexmaptype
  | uniqueint
  | nonuniqueint
  | unorderedint
  | uniqueuint
  | nonuniqueuint
  | unordereduint
  | uniquebool
  | nonuniquebool
  | unorderedbool
  | uniquefloat
  | nonuniquefloat
  | unorderedfloat
  | uniquechar
  | nonuniquechar
  | unorderedchar
  | uniquecharx
  | nonuniquecharx
  | unorderedcharx
  | uniquevarchar
  | nonuniquevarchar
  | unorderedvarchar
  deriving DecidableEq, Repr

/-- `lockingIndexEntry`, the value of a unique index. A staged entry names
the subtransaction that staged it, a committed one names 0. -/
structure LockingIndexEntry where
  rowid : Int
  engineid : Int
  subtransactionid : Int
  deriving DecidableEq, Repr

/-- `nonLockingIndexEntry_s`. -/
structure NonLockingIndexEntry where
  rowid : Int
  engineid : Int
  deriving DecidableEq, Repr

structure LockQueueIndexEntry where
  pendingcmdid : Int
  tacmdentrypoint : Int
  entry : LockingIndexEntry
  deriving DecidableEq, Repr

/-- The pointers to maps with one entry for a key. -/
inductive LockingMap
  | uniqueIntIndex
  | unorderedIntIndex
  | uniqueUintIndex
  | unorderedUintIndex
  | uniqueBoolIndex
  | unorderedBoolIndex
  | uniqueFloatIndex
  | unorderedFloatIndex
  | uniqueCharIndex
  | unorderedCharIndex
  | uniqueStringIndex
  | unorderedStringIndex
  deriving DecidableEq, Repr

/-- The pointers to multimaps. -/
inductive NonLockingMap
  | nonuniqueIntIndex
  | nonuniqueUintIndex
  | nonuniqueBoolIndex
  | nonuniqueFloatIndex
  | nonuniqueCharIndex
  | nonuniqueStringIndex
  deriving DecidableEq, Repr

/-- The pointers to lock queues. -/
inductive LockQueueMap
  | intLockQueue
  | uintLockQueue
  | boolLockQueue
  | floatLockQueue
  | charLockQueue
  | stringLockQueue
  deriving DecidableEq, Repr

structure Index where
  indextype : Indextype
  fieldtype : Fieldtype
  isunique : Bool
  indexmaptype : Indexmaptype
  locking : LockingMap → Option (Key → Option LockingIndexEntry)
  nonlocking : NonLockingMap → Option (List (Key × NonLockingIndexEntry))
  lockQueue : LockQueueMap → Option (Key → List LockQueueIndexEntry)
  nulls : Finset (Int × Int)

/-! ## `makeindex` -/

namespace Indexmaptype

/-- The map type of a unique, a nonunique and an unordered index on a field
of the type. The source adds the map kind to a multiple of 3. -/
def ofFieldtype : Fieldtype → Indexmaptype × Indexmaptype × Indexmaptype
  | .int => (uniqueint, nonuniqueint, unorderedint)
  | .uint => (uniqueuint, nonuniqueuint, unordereduint)
  | .bool => (uniquebool, nonuniquebool, unorderedbool)
  | .float => (uniquefloat, nonuniquefloat, unorderedfloat)
  | .char => (uniquechar, nonuniquechar, unorderedchar)
  | .charx => (uniquecharx, nonuniquecharx, unorderedcharx)
  | .varchar => (uniquevarchar, nonuniquevarchar, unorderedvarchar)
  | .nofieldtype => (noindexmaptype, noindexmaptype, noindexmaptype)

/-- The locking map that an index of this type allocates, with its queue. -/
def lockingMap : Indexmaptype → Option (LockingMap × LockQueueMap)
  | uniqueint => some (.uniqueIntIndex, .intLockQueue)
  | unorderedint => some (.unorderedIntIndex, .intLockQueue)
  | uniqueuint => some (.uniqueUintIndex, .uintLockQueue)
  | unordereduint => some (.unorderedUintIndex, .uintLockQueue)
  | uniquebool => some (.uniqueBoolIndex, .boolLockQueue)
  | unorderedbool => some (.unorderedBoolIndex, .boolLockQueue)
  | uniquefloat => some (.uniqueFloatIndex, .floatLockQueue)
  | unorderedfloat => some (.unorderedFloatIndex, .floatLockQueue)
  | uniquechar => some (.uniqueCharIndex, .charLockQueue)
  | unorderedchar => some (.unorderedCharIndex, .charLockQueue)
  | uniquecharx | uniquevarchar => some (.uniqueStringIndex, .stringLockQueue)
  | unorderedcharx | unorderedvarchar =>
      some (.unorderedStringIndex, .stringLockQueue)
  | _ => none

/-- The multimap that an index of this type allocates. -/
def nonLockingMap : Indexmaptype → Option NonLockingMap
  | nonuniqueint => some .nonuniqueIntIndex
  | nonuniqueuint => some .nonuniqueUintIndex
  | nonuniquebool => some .nonuniqueBoolIndex
  | nonuniquefloat => some .nonuniqueFloatIndex
  | nonuniquechar => some .nonuniqueCharIndex
  | nonuniquecharx | nonuniquevarchar => some .nonuniqueStringIndex
  | _ => none

end Indexmaptype

namespace Indextype

/-- `isunique`, as `makeindex` sets it. -/
def isunique : Indextype → Bool
  | unique | unordered | uniquenotnull | unorderednotnull => true
  | none | nonunique | nonuniquenotnull => false

/-- The map type for a field type: without an index there is none. -/
def indexmaptype (t : Indextype) (fieldtype : Fieldtype) : Indexmaptype :=
  let (uniq, nonuniq, unord) := Indexmaptype.ofFieldtype fieldtype
  match t with
  | none => .noindexmaptype
  | unique | uniquenotnull => uniq
  | nonunique | nonuniquenotnull => nonuniq
  | unordered | unorderednotnull => unord

end Indextype

namespace Index

/-- `makeindex`, on the index its constructor leaves with null pointers. -/
def makeindex (indextype : Indextype) (fieldtype : Fieldtype) : Index :=
  let maptype := indextype.indexmaptype fieldtype
  { indextype := indextype
    fieldtype := fieldtype
    isunique := indextype.isunique
    indexmaptype := maptype
    locking := fun m =>
      if maptype.lockingMap.any (·.1 == m) then some (fun _ => none) else none
    nonlocking := fun m =>
      if maptype.nonLockingMap == some m then some [] else none
    lockQueue := fun q =>
      if maptype.lockingMap.any (·.2 == q) then some (fun _ => []) else none
    nulls := ∅ }

/-! ## Access through a pointer -/

def setLocking (i : Index) (m : LockingMap)
    (entries : Key → Option LockingIndexEntry) : Index :=
  { i with locking := Function.update i.locking m (some entries) }

def setNonlocking (i : Index) (m : NonLockingMap)
    (entries : List (Key × NonLockingIndexEntry)) : Index :=
  { i with nonlocking := Function.update i.nonlocking m (some entries) }

/-- `m->erase(key)` and `m->operator[](key) = entry`. -/
def assign (i : Index) (m : LockingMap) (key : Key)
    (entry : Option LockingIndexEntry) : Option Index :=
  match i.locking m with
  | none => none
  | some entries => some (i.setLocking m (Function.update entries key entry))

/-- `queue->operator[](key).push(queueEntry)`. -/
def push (i : Index) (q : LockQueueMap) (key : Key)
    (queueEntry : LockQueueIndexEntry) : Option Index :=
  match i.lockQueue q with
  | none => none
  | some queue =>
      let queue' := Function.update queue key (queue key ++ [queueEntry])
      some { i with
        lockQueue := Function.update i.lockQueue q (some queue') }

/-! ## Staging -/

/-- One case of `SubTransaction::uniqueIndex`: stage an entry where there is
none, wait behind a staged one, refuse behind a committed one. -/
def stage (i : Index) (m : LockingMap) (q : LockQueueMap) (key : Key)
    (queueEntry : LockQueueIndexEntry) : Option (Locktype × Index) :=
  match i.locking m with
  | none => none
  | some entries =>
      match entries key with
      | none =>
          (i.assign m key (some queueEntry.entry)).map (.indexLock, ·)
      | some entry =>
          if entry.subtransactionid ≠ 0 then
            (i.push q key queueEntry).map (.indexPendingLock, ·)
          else some (.noLock, i)

/-- `SubTransaction::uniqueIndex` on the field's index. The ordered string
maps are searched under the trimmed value, the unordered ones under the value
as it is; either way the reply carries the value back. -/
def uniqueIndex (i : Index) (queueEntry : LockQueueIndexEntry)
    (val : FieldValue) : Option (Locktype × FieldValue × Index) :=
  let v := val.value
  let reply := fun (val : FieldValue) (staged : Option (Locktype × Index)) =>
    staged.map fun (locktype, i') => (locktype, val, i')
  match i.indexmaptype with
  | .uniqueint =>
      reply val (i.stage .uniqueIntIndex .intLockQueue (.integer v.integer)
        queueEntry)
  | .unorderedint =>
      reply val (i.stage .unorderedIntIndex .intLockQueue (.integer v.integer)
        queueEntry)
  | .uniqueuint =>
      reply val (i.stage .uniqueUintIndex .uintLockQueue
        (.uinteger v.uinteger) queueEntry)
  | .unordereduint =>
      reply val (i.stage .unorderedUintIndex .uintLockQueue
        (.uinteger v.uinteger) queueEntry)
  | .uniquebool =>
      reply val (i.stage .uniqueBoolIndex .boolLockQueue (.boolean v.boolean)
        queueEntry)
  | .unorderedbool =>
      reply val (i.stage .unorderedBoolIndex .boolLockQueue
        (.boolean v.boolean) queueEntry)
  | .uniquefloat =>
      reply val (i.stage .uniqueFloatIndex .floatLockQueue
        (.floating v.floating) queueEntry)
  | .unorderedfloat =>
      reply val (i.stage .unorderedFloatIndex .floatLockQueue
        (.floating v.floating) queueEntry)
  | .uniquechar =>
      reply val (i.stage .uniqueCharIndex .charLockQueue
        (.character v.character) queueEntry)
  | .unorderedchar =>
      reply val (i.stage .unorderedCharIndex .charLockQueue
        (.character v.character) queueEntry)
  | .uniquecharx =>
      let val := val.trim
      reply val (i.stage .uniqueStringIndex .stringLockQueue (.str val.str)
        queueEntry)
  | .unorderedcharx =>
      reply val (i.stage .unorderedStringIndex .stringLockQueue (.str val.str)
        queueEntry)
  | .uniquevarchar =>
      let val := val.trim
      reply val (i.stage .uniqueStringIndex .stringLockQueue (.str val.str)
        queueEntry)
  | .unorderedvarchar =>
      reply val (i.stage .unorderedStringIndex .stringLockQueue (.str val.str)
        queueEntry)
  | _ => some (.notFoundLock, val, i)

/-! ## Commit and rollback of a staged entry -/

/-- One case of the switches: what the owner's staged entry becomes. -/
def ifOwner (i : Index) (m : LockingMap) (key : Key) (subtransactionid : Int)
    (f : LockingIndexEntry → Option LockingIndexEntry) : Option Index :=
  match i.locking m with
  | none => none
  | some entries =>
      match entries key with
      | none => some i
      | some entry =>
          if entry.subtransactionid ≠ subtransactionid then some i
          else i.assign m key (f entry)

def commitEntry (i : Index) (m : LockingMap) (key : Key)
    (subtransactionid : Int) : Option Index :=
  i.ifOwner m key subtransactionid fun entry =>
    some { entry with subtransactionid := 0 }

def rollbackEntry (i : Index) (m : LockingMap) (key : Key)
    (subtransactionid : Int) : Option Index :=
  i.ifOwner m key subtransactionid fun _ => none

/-- The overloads of `commitRollback` for the fixed-size types. -/
def commitRollbackFixed (i : Index) (uniqueType unorderedType : Indexmaptype)
    (uniqueMap unorderedMap : LockingMap) (input : Key)
    (subtransactionid : Int) (cmd : Enginecmd) : Option Index :=
  match cmd with
  | .commitCmd =>
      if i.indexmaptype = uniqueType then
        i.commitEntry uniqueMap input subtransactionid
      else if i.indexmaptype = unorderedType then
        i.commitEntry unorderedMap input subtransactionid
      else some i
  | .rollbackCmd =>
      if i.indexmaptype = uniqueType then
        i.rollbackEntry uniqueMap input subtransactionid
      else if i.indexmaptype = unorderedType then
        i.rollbackEntry unorderedMap input subtransactionid
      else some i
  | _ => some i

/-- The overload for strings. The rollback case of `unorderedcharx` ends
without a `break` when the entry was the caller's, and the case below it goes
on with the map of `uniquevarchar`. -/
def commitRollbackString (i : Index) (input : Key) (subtransactionid : Int)
    (cmd : Enginecmd) : Option Index :=
  match cmd with
  | .commitCmd =>
      match i.indexmaptype with
      | .uniquecharx | .uniquevarchar =>
          i.commitEntry .uniqueStringIndex input subtransactionid
      | .unorderedcharx | .unorderedvarchar =>
          i.commitEntry .unorderedStringIndex input subtransactionid
      | _ => some i
  | .rollbackCmd =>
      match i.indexmaptype with
      | .uniquecharx | .uniquevarchar =>
          i.rollbackEntry .uniqueStringIndex input subtransactionid
      | .unorderedcharx =>
          match i.locking .unorderedStringIndex with
          | none => none
          | some entries =>
              match entries input with
              | none => some i
              | some entry =>
                  if entry.subtransactionid ≠ subtransactionid then some i
                  else
                    match i.assign .unorderedStringIndex input none with
                    | none => none
                    | some i' =>
                        i'.rollbackEntry .uniqueStringIndex input
                          subtransactionid
      | .unorderedvarchar =>
          i.rollbackEntry .unorderedStringIndex input subtransactionid
      | _ => some i
  | _ => some i

def commitRollback (i : Index) (input : Key) (subtransactionid : Int)
    (cmd : Enginecmd) : Option Index :=
  match input with
  | .integer _ =>
      i.commitRollbackFixed .uniqueint .unorderedint .uniqueIntIndex
        .unorderedIntIndex input subtransactionid cmd
  | .uinteger _ =>
      i.commitRollbackFixed .uniqueuint .unordereduint .uniqueUintIndex
        .unorderedUintIndex input subtransactionid cmd
  | .boolean _ =>
      i.commitRollbackFixed .uniquebool .unorderedbool .uniqueBoolIndex
        .unorderedBoolIndex input subtransactionid cmd
  | .floating _ =>
      i.commitRollbackFixed .uniquefloat .unorderedfloat .uniqueFloatIndex
        .unorderedFloatIndex input subtransactionid cmd
  | .character _ =>
      i.commitRollbackFixed .uniquechar .unorderedchar .uniqueCharIndex
        .unorderedCharIndex input subtransactionid cmd
  | .str _ => i.commitRollbackString input subtransactionid cmd

/-! ## Committed entries of a unique index -/

/-- The switch of the functions below: the map of the argument's type that
the index has, if it has one. A string argument has been trimmed. -/
def assignUnique (i : Index) (input : Key)
    (entry : Option LockingIndexEntry) : Option Index :=
  match input, i.indexmaptype with
  | .integer _, .uniqueint => i.assign .uniqueIntIndex input entry
  | .integer _, .unorderedint => i.assign .unorderedIntIndex input entry
  | .uinteger _, .uniqueuint => i.assign .uniqueUintIndex input entry
  | .uinteger _, .unordereduint => i.assign .unorderedUintIndex input entry
  | .boolean _, .uniquebool => i.assign .uniqueBoolIndex input entry
  | .boolean _, .unorderedbool => i.assign .unorderedBoolIndex input entry
  | .floating _, .uniquefloat => i.assign .uniqueFloatIndex input entry
  | .floating _, .unorderedfloat => i.assign .unorderedFloatIndex input entry
  | .character _, .uniquechar => i.assign .uniqueCharIndex input entry
  | .character _, .unorderedchar => i.assign .unorderedCharIndex input entry
  | .str _, .uniquecharx | .str _, .uniquevarchar =>
      i.assign .uniqueStringIndex input entry
  | .str _, .unorderedcharx | .str _, .unorderedvarchar =>
      i.assign .unorderedStringIndex input entry
  | _, _ => some i

def deleteUniqueEntry (i : Index) (entry : Key) : Option Index :=
  i.assignUnique entry.trim none

def replaceUnique (i : Index) (newrowid newengineid : Int) (input : Key) :
    Option Index :=
  i.assignUnique input.trim (some ⟨newrowid, newengineid, 0⟩)

/-! ## Entries of a nonunique index

These overloads do not look at `indexmaptype`; the type of the argument
names the map. -/

def nonuniqueMap : Key → NonLockingMap
  | .integer _ => .nonuniqueIntIndex
  | .uinteger _ => .nonuniqueUintIndex
  | .boolean _ => .nonuniqueBoolIndex
  | .floating _ => .nonuniqueFloatIndex
  | .character _ => .nonuniqueCharIndex
  | .str _ => .nonuniqueStringIndex

/-- Rewrite the multimap of the key's type. -/
def mapNonunique (i : Index) (key : Key)
    (f : List (Key × NonLockingIndexEntry) →
      List (Key × NonLockingIndexEntry)) : Option Index :=
  match i.nonlocking (nonuniqueMap key) with
  | none => none
  | some entries => some (i.setNonlocking (nonuniqueMap key) (f entries))

def insertNonuniqueEntry (i : Index) (entry : Key) (rowid engineid : Int) :
    Option Index :=
  let key := entry.trim
  i.mapNonunique key fun entries => entries ++ [(key, ⟨rowid, engineid⟩)]

/-- The loop over `equal_range(entry)`, erasing every entry of the row. -/
def deleteNonuniqueEntry (i : Index) (entry : Key) (rowid engineid : Int) :
    Option Index :=
  let key := entry.trim
  i.mapNonunique key fun entries =>
    entries.filter fun e => ¬ (e.1 = key ∧ e.2 = ⟨rowid, engineid⟩)

/-- The loop over `equal_range(input)`, repointing every entry of the row. -/
def replaceNonunique (i : Index) (oldrowid oldengineid newrowid
    newengineid : Int) (input : Key) : Option Index :=
  let key := input.trim
  i.mapNonunique key fun entries => entries.map fun e =>
    if e.1 = key ∧ e.2 = ⟨oldrowid, oldengineid⟩ then
      (e.1, ⟨newrowid, newengineid⟩)
    else e

/-! ## Nulls -/

def insertNullEntry (i : Index) (rowid engineid : Int) : Index :=
  { i with nulls := insert (rowid, engineid) i.nulls }

def deleteNullEntry (i : Index) (rowid engineid : Int) : Index :=
  { i with nulls := i.nulls.erase (rowid, engineid) }

def replaceNull (i : Index) (oldrowid oldengineid newrowid
    newengineid : Int) : Index :=
  { i with nulls :=
      insert (newrowid, newengineid) (i.nulls.erase (oldrowid, oldengineid)) }

end Index

end Infinisql.Ref
