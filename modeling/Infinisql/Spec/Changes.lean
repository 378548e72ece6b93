import Infinisql.Ref.Applier

/-!
# What a commit changes

A commit gives rows a version or takes them away, and adds entries to indexes
or removes them, each at a partition. The items that `continueCommitTransaction`
sends say it in their own way: the row of an item is at the engine already,
staged, and a staged unique entry is named by its key. So a staged row goes
with an item to say what it changes. The messages to a replica say it again,
with records for the rows and index items for the entries.
-/

namespace Infinisql.Spec

open Infinisql.Ref

inductive Change
  | row (partition tableid rowid : Int) (row : Option Bytes)
  | entry (partition tableid : Int) (fieldid : Nat) (isadd : Bool)
      (fieldVal : FieldValue) (rowid engineid : Int)
  deriving DecidableEq

/-! ## On the primary -/

/-- The version of a row that its item leaves: the new one at the new address,
and none at the old one of a row that moves. -/
def rowChange (sRow : StagedRow) (partition : Int) (rof : RowOrField) :
    List Change :=
  match sRow.cmd with
  | .nocommand => []
  | .delete => [.row partition rof.tableid rof.rowid none]
  | .insert | .update =>
      if partition = sRow.newengineid ∧ rof.rowid = sRow.newrowid then
        [.row partition rof.tableid rof.rowid (some sRow.newRow)]
      else [.row partition rof.tableid rof.rowid none]

def itemChanges (sRow : StagedRow) (item : Int × RowOrField) : List Change :=
  let rof := item.2
  let entry := fun isadd rowid engineid =>
    Change.entry item.1 rof.tableid rof.fieldid isadd rof.fieldVal rowid
      engineid
  if rof.isrow then rowChange sRow item.1 rof
  else if rof.isreplace then
    [entry false rof.rowid rof.engineid,
      entry true rof.newrowid rof.newengineid]
  else if rof.isnotaddunique then
    [entry (!rof.deleteindexentry) rof.rowid rof.engineid]
  else [entry true sRow.newrowid sRow.newengineid]

/-- What the commit of a staged row changes. -/
def stagedChanges (top : Topology) (fields : List Field) (uur : UuRecord)
    (sRow : StagedRow) : List Change :=
  let items := Transaction.rowItems top fields uur sRow
  (items.1 ++ items.2).flatMap (itemChanges sRow)

def commitChanges (top : Topology) (schema : Int → List Field)
    (stagedRows : List (UuRecord × StagedRow)) : List Change :=
  stagedRows.flatMap fun x => stagedChanges top (schema x.1.tableid) x.1 x.2

/-! ## On a replica -/

def recordChange (partition : Int) (r : DispatchRecord) : Change :=
  .row partition r.tableid r.rowid
    (if r.primitive = .delete then none else some r.row)

def indexChange (item : Int × ApplyIndex) : Change :=
  .entry item.1 item.2.tableid item.2.fieldid item.2.isadd item.2.fieldVal
    item.2.rowid item.2.engineid

/-- What a message to a partition is to change there. -/
def applyChanges (msg : Int × MessageApply) : List Change :=
  msg.2.rows.map (recordChange msg.1) ++
    msg.2.indices.map fun x => indexChange (msg.1, x)

end Infinisql.Spec
