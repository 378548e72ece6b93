import Infinisql.Ref.SelectAll
import Infinisql.Spec.Cell

/-!
# The rows of a table that a transaction sees

A transaction sees the committed rows, with its own changes made to them. What
a statement without WHERE is to do is said with that: a SELECT returns these
rows, an UPDATE works on them, a DELETE takes them away, and none of the three
has to do with any other row.

Below that is what decides it: what the search does with a row that the
transaction has locked before, and what it starts from.
-/

namespace Infinisql.Spec

open Infinisql.Ref

namespace WholeTable

variable (w : WholeTable)

/-- The row object at an engine. -/
def rowAt (uur : UuRecord) : Option Rowdata :=
  (cell (w.store uur.engineid) uur.rowid).row

/-- A row that is not an insert under way. -/
def committed (uur : UuRecord) : Option Bytes :=
  ((rowAt w uur).filter (!getinsertflag ·.flags)).map (·.row)

/-- The row as the transaction sees it. -/
def visible (uur : UuRecord) : Option Bytes :=
  if uur.tableid = w.tableid then
    match w.stagedRows uur with
    | none => committed w uur
    | some srow =>
        match srow.cmd with
        | .nocommand => committed w uur
        | .insert | .update => some srow.newRow
        | .delete => none
  else none

/-- The rows that a statement works on: none, where it goes on as another
statement. -/
def worksOn (cmd : SearchCmd) (next : Continuation) (results : SearchResults) :
    SearchResults :=
  if next = cmd.continuation then results else fun _ => none

/-- The statement works on the rows that are seen and on no others; all that
counts to a DELETE is which rows there are. -/
def ActsOnTable (cmd : SearchCmd) : Searched → Prop
  | .aborted _ => False
  | .continued next results => ∀ uur,
      match cmd with
      | .delete => (worksOn cmd next results uur).isSome =
          (visible w uur).isSome
      | _ => (worksOn cmd next results uur).map (·.row) = visible w uur

/-! ## The condition -/

/-- All entries of field 0, partition after partition. -/
def hits : List (Int × Int) := (List.range w.numpartitions).flatMap w.getall

def Listed (uur : UuRecord) : Prop :=
  uur.tableid = w.tableid ∧ (uur.rowid, uur.engineid) ∈ hits w

/-- The transaction has the row locked. -/
def Own (d : Rowdata) (uur : UuRecord) : Prop :=
  Holds d (w.subtransactionids uur.engineid)

/-- Everything staged is a row of the table that is still there. -/
structure StagedFits : Prop where
  table : ∀ uur srow, w.stagedRows uur = some srow →
    uur.tableid = w.tableid ∧ srow.cmd ≠ .delete
  read : ∀ uur srow, w.stagedRows uur = some srow → srow.cmd = .nocommand →
    (committed w uur).isSome

/-- A search that takes no write locks leaves out what is locked: it is staged,
and where it was only read, it is staged as it is. -/
def SkippedFits : Prop :=
  ∀ uur d, Listed w uur → rowAt w uur = some d →
    getinsertflag d.flags = false → Own w d uur →
    ∃ srow, w.stagedRows uur = some srow ∧
      (srow.cmd = .nocommand → srow.originalRow = d.row)

/-- A search that takes no locks returns whatever insert is listed. -/
def NoOtherInsert : Prop :=
  ∀ uur d, Listed w uur → rowAt w uur = some d →
    getinsertflag d.flags = true → Own w d uur

/-- A search that takes write locks waits for a read lock of its own, and
returns the row in the table over the row that is staged. -/
structure RereadFits (cmd : SearchCmd) : Prop where
  notRead : ∀ uur d, Listed w uur → rowAt w uur = some d →
    ¬ HoldsRead d (w.subtransactionids uur.engineid)
  known : ∀ uur d, Listed w uur → rowAt w uur = some d →
    getinsertflag d.flags = true → Own w d uur → (w.stagedRows uur).isSome
  unchanged : cmd ≠ .delete → ∀ uur d srow, Listed w uur →
    rowAt w uur = some d → w.stagedRows uur = some srow →
    srow.cmd = .update → srow.newRow = d.row

/-- Nothing is staged that is seen. -/
def NothingSeen : Prop :=
  ∀ uur srow, uur.tableid = w.tableid → w.stagedRows uur = some srow →
    srow.cmd = .nocommand ∨ srow.cmd = .delete

/-- When a statement without WHERE acts on the table. -/
def Fits : SearchCmd → Prop
  | .select => StagedFits w ∧ SkippedFits w
  | .selectNolock => StagedFits w ∧ SkippedFits w ∧ NoOtherInsert w
  | .selectForUpdate => StagedFits w ∧ RereadFits w .selectForUpdate
  | .update => if hits w = [] then NothingSeen w
      else StagedFits w ∧ RereadFits w .update
  | .delete => if hits w = [] then NothingSeen w
      else StagedFits w ∧ RereadFits w .delete

end WholeTable

end Infinisql.Spec
