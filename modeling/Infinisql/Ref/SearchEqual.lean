import Infinisql.Ref.SelectAll

/-!
# Equality searches

A predicate `field = value` goes to one partition, the one that the value's
hash names. What happens there has two forms. On most fields it is an
INDEXSEARCH: the partition answers with the entries it has under the value,
and the transaction sends a SELECTROWS to the engine that an entry names. On a
unique field 0 it is a SEARCHRETURN1: the partition takes the rowid of the one
entry it has, and selects that row among its own.

Either way `continueSqlPredicate` puts the row that comes back into the
results, over what the staged rows have brought, and the search goes on. But
where an INDEXSEARCH has found no entry, `continueSqlPredicate` clears
`pendingcmd` before it asks which command was pending, and so it goes on at
`continueSelect`: the results of the predicate are left behind.

A unique index has one entry for a value. That there are more of them is left
out of the second form.
-/

namespace Infinisql.Ref

/-! ## The index -/

namespace Index

/-- `count` and `at` of a map with one entry for a key. -/
def findEntry (i : Index) (m : LockingMap) (input : Key) :
    Option (List NonLockingIndexEntry) :=
  (i.locking m).map fun entries =>
    (entries input).toList.map fun entry => ⟨entry.rowid, entry.engineid⟩

/-- `equal_range` of a multimap. -/
def equalRange (i : Index) (m : NonLockingMap) (input : Key) :
    Option (List NonLockingIndexEntry) :=
  (i.nonlocking m).map fun entries =>
    (entries.filter (·.1 = input)).map Prod.snd

/-- `getequal_f`. A string has been trimmed. -/
def getequal (i : Index) (input : Key) : Option (List NonLockingIndexEntry) :=
  match input.trim, i.indexmaptype with
  | .integer v, .uniqueint => i.findEntry .uniqueIntIndex (.integer v)
  | .integer v, .nonuniqueint => i.equalRange .nonuniqueIntIndex (.integer v)
  | .integer v, .unorderedint => i.findEntry .unorderedIntIndex (.integer v)
  | .uinteger v, .uniqueuint => i.findEntry .uniqueUintIndex (.uinteger v)
  | .uinteger v, .nonuniqueuint =>
      i.equalRange .nonuniqueUintIndex (.uinteger v)
  | .uinteger v, .unordereduint =>
      i.findEntry .unorderedUintIndex (.uinteger v)
  | .boolean v, .uniquebool => i.findEntry .uniqueBoolIndex (.boolean v)
  | .boolean v, .nonuniquebool =>
      i.equalRange .nonuniqueBoolIndex (.boolean v)
  | .boolean v, .unorderedbool => i.findEntry .unorderedBoolIndex (.boolean v)
  | .floating v, .uniquefloat => i.findEntry .uniqueFloatIndex (.floating v)
  | .floating v, .nonuniquefloat =>
      i.equalRange .nonuniqueFloatIndex (.floating v)
  | .floating v, .unorderedfloat =>
      i.findEntry .unorderedFloatIndex (.floating v)
  | .character v, .uniquechar => i.findEntry .uniqueCharIndex (.character v)
  | .character v, .nonuniquechar =>
      i.equalRange .nonuniqueCharIndex (.character v)
  | .character v, .unorderedchar =>
      i.findEntry .unorderedCharIndex (.character v)
  | .str v, .uniquecharx | .str v, .uniquevarchar =>
      i.findEntry .uniqueStringIndex (.str v)
  | .str v, .nonuniquecharx | .str v, .nonuniquevarchar =>
      i.equalRange .nonuniqueStringIndex (.str v)
  | .str v, .unorderedcharx | .str v, .unorderedvarchar =>
      i.findEntry .unorderedStringIndex (.str v)
  | _, _ => some []

end Index

/-! ## The engine -/

namespace SubTransaction

/-- `indexSearch`, case `OPERATOR_EQ`. -/
def indexSearch (e : Engine) (tableid : Int) (fieldid : Nat)
    (value : FieldValue) : Option (List NonLockingIndexEntry) :=
  match e.tables tableid with
  | none => none
  | some p =>
      match value.key (p.index fieldid).fieldtype with
      | none => some []
      | some key => (p.index fieldid).getequal key

/-- `SELECTROWS`. -/
def selectrows (s : Int) (e : Engine) (tableid : Int) (rowids : List Int)
    (locktype : Locktype) (pendingcmdid tacmdentrypoint : Int) :
    Option (List ReturnRow × Engine) :=
  match e.tables tableid with
  | none => none
  | some p =>
      (p.store.selectrows locktype s pendingcmdid tacmdentrypoint rowids).map
        fun (returnRows, t) =>
          let p' := { p with store := t }
          (returnRows,
            { e with tables := Function.update e.tables tableid (some p') })

/-- `SEARCHRETURN1`. -/
def searchReturn1 (s : Int) (e : Engine) (tableid : Int) (fieldid : Nat)
    (locktype : Locktype) (value : FieldValue)
    (pendingcmdid tacmdentrypoint : Int) : Option (List ReturnRow × Engine) :=
  match indexSearch e tableid fieldid value with
  | none => none
  | some [hit] =>
      selectrows s e tableid [hit.rowid] locktype pendingcmdid tacmdentrypoint
  | some _ => some ([Table.notFoundRow 0], e)

end SubTransaction

/-! ## The transaction -/

/-- How the search for one predicate goes on. -/
inductive Predicated
  | aborted (status : Apistatus)
  | searchExpression (predicateResults : SearchResults)
  | continueSelect

/-- The search results of a statement whose WHERE is the predicate. -/
def Predicated.searchResults : Predicated → Except Apistatus SearchResults
  | .aborted status => .error status
  | .searchExpression predicateResults => .ok predicateResults
  | .continueSelect => .ok fun _ => none

/-- A predicate `field = value` on its way to the engines. -/
structure EqualPredicate where
  tableid : Int
  fieldid : Nat
  field : Field
  value : FieldValue
  locktype : Locktype
  pendingcmdid : Int
  predicateResults : SearchResults

namespace Transaction

/-- Entry point 2 of `continueSqlPredicate`, for one row. -/
def takeReturnRow (tableid engineid : Int) (results : SearchResults)
    (r : ReturnRow) : Except Apistatus SearchResults :=
  match r.locktype with
  | .noLock | .readLock | .writeLock =>
      .ok (Function.update results ⟨r.rowid, tableid, engineid⟩ (some r))
  | .pendingLock => .error .lock
  | _ => .ok results

/-- Entry point 2 of `continueSqlPredicate`, for the only reply. -/
def takeReturnRows (p : EqualPredicate) (engineid : Int)
    (returnRows : List ReturnRow) : Predicated :=
  match returnRows.foldlM (takeReturnRow p.tableid engineid)
      p.predicateResults with
  | .error status => .aborted status
  | .ok results => .searchExpression results

/-- The partition that the predicate is sent to. -/
def predicateEngineid (top : Topology) (p : EqualPredicate) : Int :=
  getEngineidOf top p.field p.value

/-- The predicate as a SEARCHRETURN1. -/
def searchReturn1 (top : Topology) (subs : Int → Int) (p : EqualPredicate)
    (c : Cluster) : Option (Predicated × Cluster) :=
  let e := predicateEngineid top p
  (SubTransaction.searchReturn1 (subs e) (c e) p.tableid p.fieldid p.locktype
    p.value p.pendingcmdid 2).map fun (returnRows, engine) =>
      (takeReturnRows p e returnRows, Function.update c e engine)

/-- The predicate as an INDEXSEARCH, and a SELECTROWS to the engine of what it
has found. -/
def indexSearch (top : Topology) (subs : Int → Int) (p : EqualPredicate)
    (c : Cluster) : Option (Predicated × Cluster) :=
  match SubTransaction.indexSearch (c (predicateEngineid top p)) p.tableid
      p.fieldid p.value with
  | none => none
  | some [] => some (.continueSelect, c)
  | some [hit] =>
      let e := hit.engineid
      (SubTransaction.selectrows (subs e) (c e) p.tableid [hit.rowid]
        p.locktype p.pendingcmdid 2).map fun (returnRows, engine) =>
          (takeReturnRows p e returnRows, Function.update c e engine)
  | some (_ :: _ :: _) => none

/-- `sqlPredicate` with `OPERATOR_EQ`: which form it is. -/
def sqlPredicate (top : Topology) (subs : Int → Int) (p : EqualPredicate)
    (c : Cluster) : Option (Predicated × Cluster) :=
  if p.fieldid = 0 ∧ p.field.indextype.isunique then
    searchReturn1 top subs p c
  else indexSearch top subs p c

end Transaction

end Infinisql.Ref
