import Infinisql.Ref.Apply

/-!
# What a replica should hold

The transactions of one partition commit one after another. For its rows that
is a table: an INSERT needs its place free, an UPDATE and a DELETE need the row
as their predecessor left it. For one of its indexes it is a list of live
entries: an entry is added that is not live, in a unique index under a key
that is free, and one that is live is removed.

A replica gets the messages of the transactions in any order. Once it has all
of them it should hold what the serial history left.
-/

namespace Infinisql.Spec

open Infinisql.Ref

/-- The committed transactions of a partition in order: the subtransaction id
that each has there, and what it did. -/
abbrev Commits (α : Type) := List (Int × List α)

/-- What was done, in order, each under its subtransaction. -/
def Commits.items {α : Type} (commits : Commits α) : List (Int × α) :=
  commits.flatMap fun c => c.2.map fun x => (c.1, x)

/-! ## Rows -/

/-- The rows, each with the subtransaction that wrote it. -/
abbrev SerialRows := Int → Int → Option (Int × Bytes)

def SerialRows.set (rows : SerialRows) (r : DispatchRecord)
    (row : Option (Int × Bytes)) : SerialRows :=
  Function.update rows r.tableid
    (Function.update (rows r.tableid) r.rowid row)

/-- One record, if it may come next. -/
def SerialRows.commit (rows : SerialRows) (x : Int × DispatchRecord) :
    Option SerialRows :=
  match x.2.primitive, rows x.2.tableid x.2.rowid with
  | .insert, none => some (rows.set x.2 (some (x.1, x.2.row)))
  | .update, some row =>
      if row.1 = x.2.previoussubtransactionid then
        some (rows.set x.2 (some (x.1, x.2.row)))
      else none
  | .delete, some row =>
      if row.1 = x.2.previoussubtransactionid then some (rows.set x.2 none)
      else none
  | _, _ => none

def SerialRows.commits : SerialRows → List (Int × DispatchRecord) →
    Option SerialRows
  | rows, [] => some rows
  | rows, x :: xs => (rows.commit x).bind fun rows => rows.commits xs

/-- A history of records: each subtransaction is another, and changes a row
once. -/
structure RowHistory (commits : Commits DispatchRecord)
    (rows : SerialRows) : Prop where
  ids : (commits.map Prod.fst).Nodup
  once : ∀ c ∈ commits,
    (c.2.map fun r => (r.tableid, r.rowid)).Nodup
  serial : SerialRows.commits (fun _ _ => none) commits.items = some rows

/-! ## Entries of one index -/

/-- Where an entry is: with the nulls, or under its key. -/
inductive Slot
  | null
  | key (k : Key)
  deriving DecidableEq

structure IndexEntry where
  slot : Slot
  rowid : Int
  engineid : Int
  deriving DecidableEq

/-- The entry of an item. -/
def entryOf (fieldtype : Fieldtype) (x : ApplyIndex) : Option IndexEntry :=
  if x.fieldVal.isnull then some ⟨.null, x.rowid, x.engineid⟩
  else
    (x.fieldVal.key fieldtype).map fun k => ⟨.key k, x.rowid, x.engineid⟩

/-- Whether an entry may be added to those that are live. -/
def Free (isunique : Bool) (live : List IndexEntry) (e : IndexEntry) : Prop :=
  e ∉ live ∧
    (isunique = true → e.slot ≠ .null → ∀ l ∈ live, l.slot ≠ e.slot)

instance (isunique : Bool) (live : List IndexEntry) (e : IndexEntry) :
    Decidable (Free isunique live e) :=
  inferInstanceAs (Decidable (_ ∧ _))

/-- One item, if it may come next. -/
def commitItem (isunique : Bool) (fieldtype : Fieldtype)
    (live : List IndexEntry) (x : ApplyIndex) : Option (List IndexEntry) :=
  match entryOf fieldtype x with
  | none => none
  | some e =>
      if x.isadd then
        if Free isunique live e then some (e :: live) else none
      else if e ∈ live then some (live.erase e)
      else none

def commitItems (isunique : Bool) (fieldtype : Fieldtype) :
    List IndexEntry → List (Int × ApplyIndex) → Option (List IndexEntry)
  | live, [] => some live
  | live, x :: xs =>
      (commitItem isunique fieldtype live x.2).bind fun live =>
        commitItems isunique fieldtype live xs

end Infinisql.Spec
