import Infinisql.Lib.Run
import Infinisql.Ref.Database

/-!
# The partition of the first field

A row is placed by its first field: it goes to the engine that the value
hashes to. The entry of a unique first field goes there too. If the row behind
every entry is at the engine of the entry, it makes no difference whether a
search for the value takes the row where the entry is or asks the engine that
the entry names.
-/

namespace Infinisql.Spec

open Infinisql.Ref

/-- The two forms of the search give the statement the same search results,
and leave the engines the same. -/
def SameAnswer (top : Topology) (subs : Int → Int) (p : EqualPredicate)
    (c : Cluster) : Prop :=
  (Transaction.searchReturn1 top subs p c).map
      (fun r => (r.1.searchResults, r.2)) =
    (Transaction.indexSearch top subs p c).map
      fun r => (r.1.searchResults, r.2)

/-- The table has a unique first field. -/
def UniqueFirst (fields : List Field) : Prop :=
  ∃ f ∈ fields[0]?, f.indextype.isunique

/-- An equality search on a unique first field. -/
def OnFirstField (schema : Int → List Field) (p : EqualPredicate) : Prop :=
  p.fieldid = 0 ∧ (schema p.tableid)[0]? = some p.field ∧
    p.field.indextype.isunique

/-- The searches on unique first fields give the same either way. -/
def FastPathAgrees (top : Topology) (schema : Int → List Field)
    (subs : Int → Int → Int) (s : Database) : DatabaseOp → Prop
  | .sqlPredicate x p => OnFirstField schema p →
      SameAnswer top (subs x) p s.cluster
  | _ => True

/-! ## The condition -/

/-- The reply to come next is that to the NEWROW of a replace: of which
transaction, for which table, and which staged row waits for it. -/
def replaceWaiting (s : Database) (n : Nat) : Option (Int × Int × UuRecord) :=
  match s.sent[n]? with
  | some ⟨x, _, _, _, .cmd (.newrow tableid _), some (.replace uur _)⟩ =>
      some (x, tableid, uur)
  | _ => none

/-- The engine of the first field's value, as a row string has it. -/
def homeEngineid (top : Topology) (fields : List Field) (row : Bytes) :
    Option Int :=
  fields[0]?.map fun f =>
    (Transaction.getengine top f ((unmakerow fields row).getD 0 {})).1

/-- A row that got a new address, while the commit's comparison does not see
its first field change, from one value that is not null to another. -/
def movedUnchanged (fields : List Field) (sRow : StagedRow) : Bool :=
  let original := (unmakerow fields sRow.originalRow).getD 0 {}
  sRow.cmd = .update && Transaction.StagedRow.moved sRow &&
    !original.isnull &&
    !Transaction.changed original ((unmakerow fields sRow.newRow).getD 0 {})

/-- A replaced row goes to the engine of its new value as the row has it; a
row that is committed at a new address without a change of its first field is
at the engine of its old value; and a search that finds no entry has found no
staged row either. -/
def AtHome (top : Topology) (schema : Int → List Field) (s : Database) :
    DatabaseOp → Prop
  | .deliver n true => ∀ q ∈ replaceWaiting s n,
      UniqueFirst (schema q.2.1) →
        homeEngineid top (schema q.2.1)
            ((s.stagedRows q.1 q.2.2).getD {}).newRow =
          some ((s.stagedRows q.1 q.2.2).getD {}).newengineid
  | .commit x _ uur => ∀ sRow ∈ s.stagedRows x uur,
      UniqueFirst (schema uur.tableid) →
        movedUnchanged (schema uur.tableid) sRow →
        homeEngineid top (schema uur.tableid) sRow.originalRow =
          some sRow.newengineid
  | .sqlPredicate _ p => OnFirstField schema p →
      SubTransaction.indexSearch
          (s.cluster (Transaction.predicateEngineid top p)) p.tableid 0
          p.value = some [] →
        ∀ uur, p.predicateResults uur = none
  | _ => True

end Infinisql.Spec
